import CobaltRom.Crfs.Freemap

/-! A free map over any sequence of calls. -/
namespace Crfs
open Bitmap

/-- The calls on a free map. -/
inductive MapOp
  | init (mapsize : Nat)
  | mark (bit : Nat)
  | unmark (bit : Nat)
  | next
  | flush
  deriving DecidableEq

namespace MapOp

def step (m : Freemap) : MapOp → Freemap
  | init mapsize => freemapInit mapsize
  | mark bit => freemapMark m bit
  | unmark bit => freemapUnmark m bit
  | next => (freemapNext m).2
  | flush => freemapFlush m

/-- The calls that empty the second bitmap. -/
def clears : MapOp → Bool
  | init _ => true
  | flush => true
  | _ => false

end MapOp

/-- The map after some calls; a static map starts all zero. -/
def afterOps (ops : List MapOp) : Freemap := ops.foldl MapOp.step (freemapInit 0)

/-- Bit `k` was marked when it had been released, and not cleared since. -/
def Remarked (k : Nat) (ops : List MapOp) : Prop :=
  ∃ pre post, ops = pre ++ .mark k :: post ∧ mem (afterOps pre).fmFreed k = true ∧
    ∀ o ∈ post, o.clears = false

/-- Bit `k` was unmarked when it was set, and no flush came since. -/
def Withheld (k : Nat) (ops : List MapOp) : Prop :=
  ∃ pre post, ops = pre ++ .unmark k :: post ∧ (afterOps pre).isset k = true ∧
    ∀ o ∈ post, o.clears = false

variable {m : Freemap} {ops pre post : List MapOp} {o : MapOp} {k n : Nat}

theorem afterOps_snoc (ops : List MapOp) (o : MapOp) :
    afterOps (ops ++ [o]) = o.step (afterOps ops) := by
  simp [afterOps]

namespace Freemap

/-- What a search leaves: the least free number is taken, or the map is as it was. -/
theorem next_ok (h : m.Ok) : (freemapNext m).2.Ok ∧ (freemapNext m).2.fmFreed = m.fmFreed := by
  rcases freemapNext_spec h with ⟨n, -, ht⟩ | ⟨-, hfull, he⟩
  · exact ⟨ht.ok, ht.freed⟩
  · rw [he]
    exact ⟨⟨h.lenMap, h.lenFreed, Nat.le_refl _, fun k hk => hfull k hk⟩, rfl⟩

theorem step_ok (h : m.Ok) (o : MapOp) : (o.step m).Ok := by
  cases o with
  | init mapsize => exact ok_init mapsize
  | mark bit => exact ok_mark h bit
  | unmark bit => exact ok_unmark h bit
  | next => exact (next_ok h).1
  | flush => exact ok_flush h

theorem afterOps_ok (ops : List MapOp) : (afterOps ops).Ok := by
  induction ops using List.reverseRecOn with
  | nil => exact ok_init 0
  | append_singleton ops o ih =>
    rw [afterOps_snoc]
    exact step_ok ih o

/-- Only a flush gives a released bit back. -/
theorem freed_step (h : m.Ok) (hc : o.clears = false) (hk : mem m.fmFreed k = true) :
    mem (o.step m).fmFreed k = true := by
  cases o with
  | init mapsize => cases hc
  | mark bit => exact hk
  | unmark bit =>
    rw [MapOp.step, mem_freed_unmark h, hk, Bool.true_or]
  | next =>
    rw [MapOp.step, (next_ok h).2]
    exact hk
  | flush => cases hc

theorem freed_run (post : List MapOp) (hc : ∀ o ∈ post, o.clears = false)
    (hk : mem (afterOps pre).fmFreed k = true) : mem (afterOps (pre ++ post)).fmFreed k = true := by
  induction post using List.reverseRecOn with
  | nil =>
    rw [List.append_nil]
    exact hk
  | append_singleton post o ih =>
    rw [← List.append_assoc, afterOps_snoc]
    refine freed_step (afterOps_ok _) (hc o (by simp)) (ih fun p hp => hc p ?_)
    exact List.mem_append_left _ hp

theorem freed_of_withheld (h : Withheld k ops) : mem (afterOps ops).fmFreed k = true := by
  obtain ⟨pre, post, rfl, hset, hc⟩ := h
  have hfreed : mem (afterOps (pre ++ [.unmark k])).fmFreed k = true := by
    rw [afterOps_snoc, MapOp.step, mem_freed_unmark (afterOps_ok pre), hset]
    simp
  have := freed_run post hc hfreed
  rwa [List.append_assoc] at this

theorem Remarked.snoc (h : Remarked k ops) (hc : o.clears = false) : Remarked k (ops ++ [o]) := by
  obtain ⟨pre, post, rfl, hfreed, hpost⟩ := h
  refine ⟨pre, post ++ [o], by simp, hfreed, fun p hp => ?_⟩
  rcases List.mem_append.1 hp with hp | hp
  · exact hpost p hp
  · rw [List.mem_singleton.1 hp]
    exact hc

/-- Both bitmaps hold a bit only if it was marked after its release. -/
theorem disjoint_or_remarked (ops : List MapOp) (hk : (afterOps ops).isset k = true)
    (hf : mem (afterOps ops).fmFreed k = true) : Remarked k ops := by
  induction ops using List.reverseRecOn with
  | nil => simp [afterOps] at hk
  | append_singleton ops o ih =>
    have hok := afterOps_ok ops
    rw [afterOps_snoc] at hk hf
    cases o with
    | init mapsize => simp [MapOp.step] at hk
    | mark bit =>
      rw [MapOp.step, isset_mark hok, Bool.or_eq_true, decide_eq_true_eq] at hk
      rcases hk with hk | ⟨rfl, -⟩
      · exact Remarked.snoc (ih hk hf) rfl
      · exact ⟨ops, [], rfl, hf, by simp⟩
    | unmark bit =>
      rw [MapOp.step, isset_unmark, Bool.and_eq_true, decide_eq_true_eq] at hk
      rw [MapOp.step, mem_freed_unmark hok] at hf
      simp only [hk.2, decide_false, Bool.and_false, Bool.or_false] at hf
      exact Remarked.snoc (ih hk.1 hf) rfl
    | next =>
      rw [MapOp.step, (next_ok hok).2] at hf
      rcases freemapNext_spec hok with ⟨n, -, ht⟩ | ⟨-, -, he⟩
      · rw [MapOp.step, ht.isset, Bool.or_eq_true, decide_eq_true_eq] at hk
        rcases hk with hk | rfl
        · exact Remarked.snoc (ih hk hf) rfl
        · have hfree := ht.free
          simp [blocked, hf] at hfree
      · rw [MapOp.step, he] at hk
        exact Remarked.snoc (ih hk hf) rfl
    | flush => simp [MapOp.step, freemapFlush] at hf

theorem full_byte (h : m.Ok) {i : Nat} (hi : i < m.fmCur) :
    m.fmMap.getD i 0 ||| m.fmFreed.getD i 0 = 0xff := by
  rw [full_iff]
  intro j hj
  rw [← blocked_byte m i j hj]
  exact h.scanned _ (by omega)

end Freemap

/-- `n` is the least number in neither bitmap. -/
def LeastFree (m : Freemap) (n : Nat) : Prop :=
  n < m.limit ∧ m.blocked n = false ∧ ∀ k, k < n → m.blocked k = true

/-- Taking the least free number adds just that number to the map. -/
theorem freemapNext_number (h : m.Ok) (hn : (freemapNext m).1 = n) :
    LeastFree m n ∧ (∀ k, (freemapNext m).2.isset k = (m.isset k || decide (k = n))) ∧
      (freemapNext m).2.fmFreed = m.fmFreed := by
  rcases Freemap.freemapNext_spec h with ⟨n', hn', ht⟩ | ⟨hn', -, -⟩
  · obtain rfl : n = n' := by omega
    exact ⟨⟨ht.lt, ht.free, ht.least⟩, ht.isset, ht.freed⟩
  · omega

theorem freemapNext_none (h : m.Ok) :
    (freemapNext m).1 = -1 ↔ ∀ k, k < m.limit → m.blocked k = true := by
  rcases Freemap.freemapNext_spec h with ⟨n, hn, ht⟩ | ⟨hn, hfull, -⟩
  · constructor
    · intro hneg
      omega
    · intro hfull
      have := hfull n ht.lt
      rw [ht.free] at this
      cases this
  · exact ⟨fun _ => hfull, fun _ => hn⟩

/-- The free map after any sequence of calls. -/
theorem freemap_over_calls (ops : List MapOp) :
    ((∃ n : Nat, (freemapNext (afterOps ops)).1 = n) ∨ (freemapNext (afterOps ops)).1 = -1) ∧
    (∀ n : Nat, (freemapNext (afterOps ops)).1 = n → LeastFree (afterOps ops) n ∧
      (∀ k, (afterOps (ops ++ [.next])).isset k = ((afterOps ops).isset k || decide (k = n))) ∧
      (afterOps (ops ++ [.next])).fmFreed = (afterOps ops).fmFreed) ∧
    ((freemapNext (afterOps ops)).1 = -1 ↔
      ∀ k, k < (afterOps ops).limit → (afterOps ops).blocked k = true) ∧
    (∀ i, i < (afterOps ops).fmCur →
      (afterOps ops).fmMap.getD i 0 ||| (afterOps ops).fmFreed.getD i 0 = 0xff) ∧
    (∀ k, (afterOps ops).isset k = true → mem (afterOps ops).fmFreed k = true →
      Remarked k ops) ∧
    ∀ k, Withheld k ops → (freemapNext (afterOps ops)).1 ≠ k := by
  have hok := Freemap.afterOps_ok ops
  rw [afterOps_snoc, MapOp.step]
  refine ⟨?_, fun n hn => freemapNext_number hok hn, freemapNext_none hok,
    fun i hi => Freemap.full_byte hok hi, fun k => Freemap.disjoint_or_remarked ops,
    fun k hk hn => ?_⟩
  · rcases Freemap.freemapNext_spec hok with ⟨n, hn, -⟩ | ⟨hn, -, -⟩
    · exact Or.inl ⟨n, hn⟩
    · exact Or.inr hn
  · have hfree := (freemapNext_number hok hn).1.2.1
    simp [Freemap.blocked, Freemap.freed_of_withheld hk] at hfree

end Crfs
