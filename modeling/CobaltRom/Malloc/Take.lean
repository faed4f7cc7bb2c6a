import CobaltRom.Malloc.Blocks
import CobaltRom.Malloc.Morecore

/-! Whole blocks are handed out: from a free cluster, or from more memory behind the last. -/
namespace Malloc
open DoubleLink Tiling Hoare

variable {m : Machine} {b k n lim start x : Int} {r l : List Int} {fuel turns : Nat}
  {g : Int → List Nat} {A B cs : List Cluster}

/-! ### The first blocks of a cluster -/

theorem takeBlocks_part (hk : k ≠ 0) (hsize : k < (m.heapinfo b).size)
    (hp : (m.heapinfo b).prev ≠ b) (hn : (m.heapinfo b).next ≠ b) :
    ∃ m', (takeBlocks b k).run m = some (m.address b, m') ∧
      OnlyTable m m' ∧ m'.heapindex = b + k ∧
      (∀ c, (m'.heapinfo c).size = if c = b then 0 else
        if c = b + k then (m.heapinfo b).size - k else (m.heapinfo c).size) ∧
      (∀ c, (m'.heapinfo c).next = if c = b then k else
        if c = (m.heapinfo b).prev then b + k else
          if c = b + k then (m.heapinfo b).next else (m.heapinfo c).next) ∧
      (∀ c, (m'.heapinfo c).prev = if c = (m.heapinfo b).next then b + k else
        if c = b + k then (m.heapinfo b).prev else (m.heapinfo c).prev) := by
  have hrest : b ≠ b + k := by omega
  have hrun : (takeBlocks b k).run m = some (m.address b,
      (((((((m.setSize (b + k) ((m.heapinfo b).size - k)).setFreeNext (b + k) (m.heapinfo b).next
        ).setFreePrev (b + k) (m.heapinfo b).prev).setFreePrev (m.heapinfo b).next (b + k)).setIndex
        (b + k)).setFreeNext (m.heapinfo b).prev (b + k)).setType b 0).setBusySize b k) := by
    simp [takeBlocks, hsize, hrest, hn.symm]
  refine ⟨_, hrun, ?_, rfl, fun c => ?_, fun c => ?_, fun c => ?_⟩
  · exact
      (OnlyTable.refl m).setSize.setFreeNext.setFreePrev.setFreePrev.setIndex.setFreeNext.setSize
      |>.setFreeNext
  · simp
  · simp
  · simp

theorem takeBlocks_whole (hsize : ¬ k < (m.heapinfo b).size) (hn : (m.heapinfo b).next ≠ b) :
    ∃ m', (takeBlocks b k).run m = some (m.address b, m') ∧
      OnlyTable m m' ∧ m'.heapindex = (m.heapinfo b).next ∧
      (∀ c, (m'.heapinfo c).size = if c = b then 0 else (m.heapinfo c).size) ∧
      (∀ c, (m'.heapinfo c).next = if c = b then k else
        if c = (m.heapinfo b).prev then (m.heapinfo b).next else (m.heapinfo c).next) ∧
      (∀ c, (m'.heapinfo c).prev =
        if c = (m.heapinfo b).next then (m.heapinfo b).prev else (m.heapinfo c).prev) := by
  have hrun : (takeBlocks b k).run m = some (m.address b,
      ((((m.setFreePrev (m.heapinfo b).next (m.heapinfo b).prev).setFreeNext (m.heapinfo b).prev
        (m.heapinfo b).next).setIndex (m.heapinfo b).next).setType b 0).setBusySize b k) := by
    simp [takeBlocks, hsize, hn.symm]
  refine ⟨_, hrun, ?_, rfl, fun c => ?_, fun c => ?_, fun c => ?_⟩
  · exact (OnlyTable.refl m).setFreePrev.setFreeNext.setIndex.setSize.setFreeNext
  · simp
  · simp
  · simp

/-- What a cluster of `n` blocks leaves free when `k` are taken. -/
def leftover (b n k : Int) : List Cluster := if k < n then [⟨b + k, n - k, .free⟩] else []

theorem Blocks.takeBlocks (h : Blocks m.heapinfo lim g (A ++ ⟨b, n, .free⟩ :: B)) (hk : 0 < k)
    (hfits : k ≤ n) :
    ∃ m', (takeBlocks b k).run m = some (m.address b, m') ∧ OnlyTable m m' ∧
      m'.heapindex = (frees (leftover b n k ++ B)).headD 0 ∧
      Blocks m'.heapinfo lim g (A ++ ⟨b, k, .large⟩ :: (leftover b n k ++ B)) := by
  obtain ⟨hA, hn, hB⟩ := h.parts
  obtain ⟨hsize, hnext, hprev⟩ := h.free_cluster
  have hlow := hA.le
  obtain ⟨hbefore, hbehind⟩ := between hA hn hB
  have hfirst := first_mem B
  have hbounds : ∀ x ∈ frees B, b + n ≤ x := fun x hx => (frees_bounds hB hx).1
  by_cases hpart : k < n
  · rw [leftover, if_pos hpart]
    obtain ⟨m', hrun, hm', hindex, hs, hx, hp⟩ :=
      takeBlocks_part hk.ne' (by rw [hsize]; exact hpart)
      (by rw [hprev]; exact hbefore.ne) (by rw [hnext]; exact hbehind.symm)
    rw [hnext] at hx hp
    rw [hprev] at hx hp
    rw [hsize] at hs
    have hgap : b + k ≠ (frees B).headD 0 := by
      rcases hfirst with h0 | hmem
      · omega
      · have := hbounds _ hmem
        omega
    refine ⟨m', hrun, hm', hindex, ?_⟩
    refine Blocks.splice A [⟨b, n, .free⟩] [⟨b, k, .large⟩, ⟨b + k, n - k, .free⟩] B b (b + n) h hA
      ⟨rfl, hk, rfl, ?_, ?_⟩ hB ⟨?_, ?_, ?_⟩ (fun _ _ => rfl) ?_ ?_
    · dsimp only
      omega
    · dsimp only [Tiled]
      omega
    · intro c hc
      rw [hs, if_neg (by omega), if_neg (by omega)]
    · intro c hc hne
      rw [hx, if_neg (by omega), if_neg hne, if_neg (by omega)]
    · intro c hc hne
      rw [hp, if_neg hne, if_neg (by omega)]
    · intro c hc
      rcases List.mem_cons.mp hc with rfl | hc
      · change (m'.heapinfo b).size = 0 ∧ (m'.heapinfo b).next = k
        rw [hs, hx, if_pos rfl, if_pos rfl]
        exact ⟨rfl, rfl⟩
      · obtain rfl := List.mem_singleton.mp hc
        change (m'.heapinfo (b + k)).size = n - k
        rw [hs, if_neg (by omega), if_pos rfl]
    · refine linked_pair.mpr ⟨⟨?_, fun _ => ?_⟩, linked_pair.mpr ⟨⟨?_, fun _ => ?_⟩,
        linked_single _ _ _ _⟩⟩
      · dsimp only
        rw [hx, if_neg hbefore.ne, if_pos rfl]
      · dsimp only
        rw [hp, if_neg hgap, if_pos rfl]
      · dsimp only
        rw [hx, if_neg (by omega), if_neg (by omega), if_pos rfl]
      · dsimp only
        rw [hp, if_pos rfl]
  · obtain rfl : k = n := by omega
    rw [leftover, if_neg hpart]
    obtain ⟨m', hrun, hm', hindex, hs, hx, hp⟩ := takeBlocks_whole (by rw [hsize]; exact hpart)
      (by rw [hnext]; exact hbehind.symm)
    rw [hnext] at hindex hx hp
    rw [hprev] at hx hp
    refine ⟨m', hrun, hm', hindex, ?_⟩
    refine Blocks.splice A [⟨b, k, .free⟩] [⟨b, k, .large⟩] B b (b + k) h hA ⟨rfl, hk, rfl⟩ hB
      ⟨?_, ?_, ?_⟩ (fun _ _ => rfl) ?_ ?_
    · intro c hc
      rw [hs, if_neg (by omega)]
    · intro c hc hne
      rw [hx, if_neg (by omega), if_neg hne]
    · intro c hc hne
      rw [hp, if_neg hne]
    · intro c hc
      obtain rfl := List.mem_singleton.mp hc
      change (m'.heapinfo b).size = 0 ∧ (m'.heapinfo b).next = k
      rw [hs, hx, if_pos rfl, if_pos rfl]
      exact ⟨rfl, rfl⟩
    · refine linked_pair.mpr ⟨⟨?_, fun _ => ?_⟩, linked_single _ _ _ _⟩
      · rw [hx, if_neg hbefore.ne, if_pos rfl]
      · rw [hp, if_pos rfl]

/-! ### The search -/

theorem search_here (h : ¬ (m.heapinfo x).size < k) :
    (search fuel k start (turns + 1) x).run m = some (.cluster x, m) := by
  rw [search, run_get_bind, if_neg h]
  rfl

/-- The search ends at a cluster that is large enough; where all around the ring are too small, it
asks for more memory. -/
theorem search_run (fuel : Nat) (k : Int)
    (hl : Linked (fun b => (m.heapinfo b).next) (fun b => (m.heapinfo b).prev)
      (fun _ => True) (x :: (r ++ [start])))
    (hstart : start ∉ r) (hturns : r.length + 2 ≤ turns) :
    (∃ y ∈ x :: r, k ≤ (m.heapinfo y).size ∧
      (search fuel k start turns x).run m = some (.cluster y, m)) ∨
    (∀ y ∈ x :: r, (m.heapinfo y).size < k) ∧ ∃ turns',
      (search fuel k start turns x).run m = (do
        let grown ← growLast fuel k
        if grown then do
          let m ← get
          search fuel k start (turns' + 1) (m.heapinfo 0).prev
        else do
          let result ← newBlocks fuel k
          pure (.fresh result) : HeapM Found).run m := by
  induction r generalizing x turns with
  | nil =>
    obtain ⟨turns, rfl⟩ : ∃ t, turns = t + 1 + 1 := Nat.exists_eq_add_of_le' hturns
    by_cases hsmall : (m.heapinfo x).size < k
    · have hnext : (m.heapinfo x).next = start := (linked_pair.mp hl).1.1
      refine Or.inr ⟨fun y hy => ?_, turns, ?_⟩
      · rwa [List.mem_singleton.mp hy]
      · rw [search, run_get_bind, if_pos hsmall]
        dsimp only
        rw [if_pos hnext]
    · exact Or.inl ⟨x, List.mem_cons_self, not_lt.mp hsmall, search_here hsmall⟩
  | cons y r ih =>
    rw [List.length_cons] at hturns
    obtain ⟨turns, rfl⟩ : ∃ t, turns = t + 1 := ⟨turns - 1, by omega⟩
    by_cases hsmall : (m.heapinfo x).size < k
    · obtain ⟨⟨hnext, -⟩, hrest⟩ := linked_pair.mp hl
      have hne : y ≠ start := fun h => hstart (by rw [h]; exact List.mem_cons_self)
      have hstep : (search fuel k start (turns + 1) x).run m =
          (search fuel k start turns y).run m := by
        rw [search, run_get_bind, if_pos hsmall]
        dsimp only at hnext ⊢
        rw [hnext, if_neg hne]
      rw [hstep]
      have hleft : r.length + 2 ≤ turns := by omega
      rcases ih hrest (fun h => hstart (List.mem_cons_of_mem _ h)) hleft with
        ⟨z, hz, hfits, hrun⟩ | ⟨hall, hmore⟩
      · exact Or.inl ⟨z, List.mem_cons_of_mem _ hz, hfits, hrun⟩
      · refine Or.inr ⟨fun z hz => ?_, hmore⟩
        rcases List.mem_cons.mp hz with rfl | hz
        · exact hsmall
        · exact hall z hz
    · exact Or.inl ⟨x, List.mem_cons_self, not_lt.mp hsmall, search_here hsmall⟩

/-! ### More memory -/

section Last

variable (hr : Ready m lim) (hb : (m.heapinfo 0).prev = b) (hn : (m.heapinfo b).size = n)
include hb hn

theorem growLast_skip (fuel : Nat) (h : ¬ (m.heaplimit ≠ 0 ∧ b + n = m.heaplimit)) :
    (growLast fuel k).run m = some (false, m) := by
  rw [growLast, run_get_bind]
  dsimp only
  rw [hb, hn, if_neg h]
  rfl

variable (hlim : m.heaplimit = lim) (hend : b + n = lim) (hsmall : n < k)
include hr hlim hend hsmall

/-- Where the last cluster is too small, what it lacks is added to it. -/
theorem growLast_grow (fuel : Nat) (hfits : lim + (k - n) ≤ 1024) :
    ∃ mem, (growLast fuel k).run m = some (true,
        (m.withCore (blockAddr (lim + (k - n))) (lim + (k - n)) mem).setSize b k) ∧
      Beyond lim m.mem mem := by
  have hlow := hr.low
  have hhigh := hr.high
  obtain ⟨mem, hmore, hframe⟩ := morecore_run fuel hr (by omega) hfits
  have hask := ask_run hr.highWater (by omega) (by omega)
  refine ⟨mem, ?_, hframe⟩
  have hgot : blockAddr lim ≠ 0 := blockAddr_ne_zero (by omega) (by omega)
  rw [growLast, run_get_bind]
  dsimp only
  rw [hb, hn, if_pos ⟨by omega, hend.trans hlim.symm⟩, run_bind_some hask,
    address_eq hr.heapbase, hend,
    if_pos rfl, run_bind_some hmore, if_pos hgot, run_modify_bind, heapinfo_withCore, hb, hn,
    add_sub_cancel]
  rfl

theorem growLast_full (fuel : Nat) (hsmall' : (k - n) * 4096 ≤ 2 ^ 31)
    (hfull : 1024 < lim + (k - n))
    (hfuel : 2 ≤ fuel) :
    ∃ mem, (growLast fuel k).run m = some (false, { m with mem := mem, warned := true }) ∧
      Beyond lim m.mem mem := by
  have hlow := hr.low
  have hhigh := hr.high
  obtain ⟨mem, hmore, hframe⟩ := morecore_full hr (by omega) hsmall' hfull hfuel
  have hask := ask_run hr.highWater (by omega) (by omega)
  refine ⟨mem, ?_, hframe⟩
  rw [growLast, run_get_bind]
  dsimp only
  rw [hb, hn, if_pos ⟨by omega, hend.trans hlim.symm⟩, run_bind_some hask,
    address_eq hr.heapbase, hend,
    if_pos rfl, run_bind_some hmore]
  rfl

end Last

theorem newBlocks_run (fuel : Nat) (hr : Ready m lim) (hk : 0 < k) (hfits : lim + k ≤ 1024) :
    ∃ mem, (newBlocks fuel k).run m = some (blockAddr lim,
        ((m.withCore (blockAddr (lim + k)) (lim + k) mem).setType lim 0).setBusySize lim k) ∧
      Beyond lim m.mem mem := by
  have hlow := hr.low
  obtain ⟨mem, hmore, hframe⟩ := morecore_run fuel hr hk hfits
  refine ⟨mem, ?_, hframe⟩
  have hgot : blockAddr lim ≠ 0 := blockAddr_ne_zero (by omega) (by omega)
  have hblock : (m.withCore (blockAddr (lim + k)) (lim + k) mem).block (blockAddr lim) = lim :=
    block_blockAddr ((heapbase_withCore m _ _ _).trans hr.heapbase) (by omega) (by omega)
  rw [newBlocks, run_bind_some hmore, if_neg hgot, run_get_bind, hblock]
  rfl

theorem newBlocks_full (hr : Ready m lim) (hk : 0 < k) (hsmall : k * 4096 ≤ 2 ^ 31)
    (hfull : 1024 < lim + k) (hfuel : 2 ≤ fuel) :
    ∃ mem, (newBlocks fuel k).run m = some (0, { m with mem := mem, warned := true }) ∧
      Beyond lim m.mem mem := by
  obtain ⟨mem, hmore, hframe⟩ := morecore_full hr hk hsmall hfull hfuel
  refine ⟨mem, ?_, hframe⟩
  rw [newBlocks, run_bind_some hmore]
  rfl

/-! ### All of it -/

/-- `k` blocks at `b` are taken from the clusters `cs`, and the heap then ends at `lim'`. -/
inductive Takes (k lim : Int) : List Cluster → Int → Int → List Cluster → Prop
  | split (A B : List Cluster) (b n : Int) : k ≤ n →
      Takes k lim (A ++ ⟨b, n, .free⟩ :: B) b lim (A ++ ⟨b, k, .large⟩ :: (leftover b n k ++ B))
  | grow (A : List Cluster) (b n : Int) : n < k → b + n = lim → b + k ≤ 1024 →
      Takes k lim (A ++ [⟨b, n, .free⟩]) b (b + k) (A ++ [⟨b, k, .large⟩])
  | fresh (cs : List Cluster) : lim + k ≤ 1024 →
      Takes k lim cs lim (lim + k) (cs ++ [⟨lim, k, .large⟩])

/-- No free cluster has `k` blocks, and what the last one lacks does not fit in the heap. -/
def Exhausted (k lim : Int) (cs : List Cluster) : Prop :=
  (∀ c ∈ cs, c.use = .free → c.size < k) ∧ 1024 < lim + k ∧
    ∀ c ∈ cs.getLast?, c.use = .free → 1024 < c.start + k

theorem blockify_eq {size : UInt32} (hsize : size.toNat < 2 ^ 31) :
    blockify size = ((size.toNat + 4095) / 4096 : Nat) := by
  have hsum : (size + blocksize - 1).toNat = size.toNat + 4095 := by
    rw [UInt32.toNat_sub, UInt32.toNat_add]
    change (2 ^ 32 - 1 + (size.toNat + 4096) % 2 ^ 32) % 2 ^ 32 = _
    omega
  rw [blockify, UInt32.toNat_div, hsum]
  rfl

theorem blockify_bounds {size : UInt32} (hpos : size ≠ 0) (hsize : size.toNat < 2 ^ 31) :
    0 < blockify size ∧ blockify size * 4096 ≤ 2 ^ 31 ∧ size.toNat ≤ blockify size * 4096 := by
  have hne : size.toNat ≠ 0 := fun h => hpos (UInt32.toNat_inj.mp h)
  have hdiv := blockify_eq hsize
  omega

/-- From a free cluster that is large enough. -/
theorem take_split (hr : Ready m lim) (h : Blocks m.heapinfo lim g cs) (hk : 0 < k)
    (hx : x ∈ 0 :: frees cs) (hfits : k ≤ (m.heapinfo x).size) :
    ∃ cs' m', (takeBlocks x k).run m = some (blockAddr x, m') ∧ Takes k lim cs x lim cs' ∧
      OnlyTable m m' ∧ Blocks m'.heapinfo lim g cs' ∧ m'.heapindex ∈ 0 :: frees cs' := by
  have hmem : x ∈ frees cs := by
    rcases List.mem_cons.mp hx with rfl | hmem
    · rw [h.origin] at hfits
      omega
    · exact hmem
  obtain ⟨⟨x, n, use⟩, hd, rfl, rfl⟩ := mem_frees.mp hmem
  obtain ⟨A, B, rfl⟩ := List.append_of_mem hd
  dsimp only at hfits ⊢
  rw [h.free_cluster.1] at hfits
  obtain ⟨m', hrun, hm', hindex, hb⟩ := h.takeBlocks hk hfits
  rw [address_eq hr.heapbase] at hrun
  refine ⟨_, m', hrun, .split A B x n hfits, hm', hb, ?_⟩
  rw [hindex, frees_append, frees_cons_large]
  rcases first_mem (leftover x n k ++ B) with h0 | hmem
  · rw [h0]
    exact List.mem_cons_self
  · exact List.mem_cons_of_mem _ (List.mem_append_right _ hmem)

/-- The last free cluster is followed by the end of the heap or by a busy one. -/
theorem last_cluster (h : Blocks m.heapinfo lim g cs) (hlow : 4 ≤ lim)
    (hend : (m.heapinfo 0).prev + (m.heapinfo (m.heapinfo 0).prev).size = lim) :
    ∃ A n, cs = A ++ [⟨(m.heapinfo 0).prev, n, .free⟩] ∧
      (m.heapinfo (m.heapinfo 0).prev).size = n := by
  have hlast : (m.heapinfo 0).prev = (frees cs).getLastD 0 := h.ring.at_end trivial
  rw [hlast] at hend ⊢
  have hmem : (frees cs).getLastD 0 ∈ frees cs := by
    rcases List.mem_cons.mp (last_mem cs) with h0 | hmem
    · rw [h0, h.origin] at hend
      omega
    · exact hmem
  obtain ⟨⟨b, n, use⟩, hd, rfl, hstart⟩ := mem_frees.mp hmem
  rw [← hstart] at hend ⊢
  have hsize : (m.heapinfo b).size = n := h.entries _ hd
  obtain ⟨A, B, rfl⟩ := List.append_of_mem hd
  dsimp only at hend
  rw [hsize] at hend
  obtain rfl := h.tiled.ends hend
  exact ⟨A, n, rfl, hsize⟩

theorem take_grow (hr : Ready m lim) (h : Blocks m.heapinfo lim g (A ++ [⟨b, n, .free⟩]))
    (hsmall : n < k) (brk : UInt32) (limit : Int) (mem : Ram) :
    ∃ m', (takeBlocks b k).run ((m.withCore brk limit mem).setSize b k) = some (blockAddr b, m') ∧
      OnlyTable (m.withCore brk limit mem) m' ∧
      Blocks m'.heapinfo (b + k) g (A ++ [⟨b, k, .large⟩]) ∧
      m'.heapindex ∈ 0 :: frees (A ++ [⟨b, k, .large⟩]) := by
  obtain ⟨hA, hn, hB⟩ := h.parts
  have hb : Blocks ((m.withCore brk limit mem).setSize b k).heapinfo (b + k) g
      (A ++ ([⟨b, k, .free⟩] ++ [])) := by
    refine Blocks.splice A [⟨b, n, .free⟩] [⟨b, k, .free⟩] [] b (b + k) h hA
      ⟨rfl, by dsimp only; omega, rfl⟩ rfl ⟨?_, ?_, ?_⟩ (fun _ _ => rfl) ?_ ?_
    · intro c hc
      rw [size_setSize, if_neg (by omega), heapinfo_withCore]
    · intro c _ _
      rw [next_setSize, heapinfo_withCore]
    · intro c _ _
      rw [prev_setSize, heapinfo_withCore]
    · intro c hc
      obtain rfl := List.mem_singleton.mp hc
      change (((m.withCore brk limit mem).setSize b k).heapinfo b).size = k
      rw [size_setSize, if_pos rfl]
    · simpa using h.middle A [⟨b, n, .free⟩] []
  have htable : OnlyTable (m.withCore brk limit mem) ((m.withCore brk limit mem).setSize b k) :=
    (OnlyTable.refl _).setSize
  rw [List.append_nil] at hb
  obtain ⟨m', hrun, hm', hindex, hb'⟩ := hb.takeBlocks (by omega) le_rfl
  rw [leftover, if_neg (lt_irrefl k)] at hindex hb'
  rw [address_eq (htable.heapbase.trans hr.heapbase)] at hrun
  refine ⟨m', hrun, htable.trans hm', hb', ?_⟩
  rw [hindex]
  exact List.mem_cons_self

theorem take_fresh (h : Blocks m.heapinfo lim g cs) (hlow : 4 ≤ lim) (hk : 0 < k) :
    Blocks ((m.setType lim 0).setBusySize lim k).heapinfo (lim + k) g
      (cs ++ [⟨lim, k, .large⟩]) := by
  have hlast : lim ≠ (frees cs).getLastD 0 := by
    rcases List.mem_cons.mp (last_mem cs) with h0 | hmem
    · omega
    · have := (frees_bounds h.tiled hmem).2
      omega
  refine Blocks.splice cs [] [⟨lim, k, .large⟩] [] lim (lim + k) (by simpa using h) h.tiled
    ⟨rfl, hk, rfl⟩ rfl ⟨?_, ?_, ?_⟩ (fun _ _ => rfl) ?_ ?_
  · intro c hc
    rw [size_setFreeNext, size_setSize, if_neg (by omega)]
  · intro c hc _
    rw [next_setFreeNext, if_neg (by omega), next_setSize]
  · intro c _ _
    rw [prev_setFreeNext, prev_setSize]
  · intro c hc
    obtain rfl := List.mem_singleton.mp hc
    refine ⟨?_, ?_⟩
    · dsimp only [Info.type]
      rw [size_setFreeNext, size_setSize, if_pos rfl]
    · dsimp only [Info.busySize]
      rw [next_setFreeNext, if_pos rfl]
  · have hmid := Blocks.middle cs [] [] (by simpa using h)
    refine linked_pair.mpr ⟨⟨?_, fun _ => ?_⟩, linked_single _ _ _ _⟩
    · rw [next_setFreeNext, if_neg hlast.symm, next_setSize]
      exact (linked_pair.mp hmid).1.1
    · rw [prev_setFreeNext, prev_setSize]
      exact (linked_pair.mp hmid).1.2 trivial

/-- What handing out `k` blocks may come to: they are taken, or the heap is exhausted and `sbrk`
warns of it. -/
inductive Given (m : Machine) (k lim : Int) (g : Int → List Nat) (cs : List Cluster) :
    Option (UInt32 × Machine) → Prop
  | taken (b lim' : Int) (cs' : List Cluster) (m' : Machine) : Takes k lim cs b lim' cs' →
      Beyond lim m.mem m'.mem → OnlyTable (m.withCore (blockAddr lim') lim' m'.mem) m' →
      Blocks m'.heapinfo lim' g cs' → m'.heapindex ∈ 0 :: frees cs' →
      Given m k lim g cs (some (blockAddr b, m'))
  | exhausted (mem : Ram) : Beyond lim m.mem mem → Exhausted k lim cs →
      Given m k lim g cs (some (0, { m with mem := mem, warned := true }))

section Search

variable (hr : Ready m lim) (h : Blocks m.heapinfo lim g cs) (hindex : m.heapindex ∈ 0 :: frees cs)
  (hk : 0 < k) (hsmall : k * 4096 ≤ 2 ^ 31) (hfuel : 1024 < fuel)
include hr h hindex hk hsmall hfuel

/-- New blocks behind the last, if there is room for all of them; `sbrk` has not warned then. -/
theorem new_memory (hall : ∀ c ∈ cs, c.use = .free → c.size < k)
    (hlast : 1024 < lim + k → ∀ c ∈ cs.getLast?, c.use = .free → 1024 < c.start + k) {mem : Ram}
    (warned : Bool) (hframe : Beyond lim m.mem mem) (hw : lim + k ≤ 1024 → warned = m.warned) :
    Given m k lim g cs ((newBlocks fuel k).run { m with mem := mem, warned := warned }) := by
  have hlow := hr.low
  have hturns : 2 ≤ fuel := by omega
  have hr' : Ready { m with mem := mem, warned := warned } lim :=
    ⟨hr.initialized, hr.heapbase, hr.heapsize, hr.highWater, hr.placed, hr.low, hr.high⟩
  by_cases hfits : lim + k ≤ 1024
  · obtain rfl := hw hfits
    obtain ⟨mem', hrun, hframe'⟩ := newBlocks_run fuel hr' hk hfits
    have htable : OnlyTable (m.withCore (blockAddr (lim + k)) (lim + k) mem')
        (((m.withCore (blockAddr (lim + k)) (lim + k) mem').setType lim 0).setBusySize lim k) :=
      (OnlyTable.refl _).setSize.setFreeNext
    have hblocks := take_fresh (m := m.withCore (blockAddr (lim + k)) (lim + k) mem') (g := g)
      (by rw [heapinfo_withCore]; exact h) hlow hk
    rw [withCore_mem] at hrun
    rw [hrun]
    refine .taken lim (lim + k) _ _ (.fresh cs hfits) ?_ ?_ hblocks ?_
    · rw [htable.mem]
      exact hframe.trans hframe'
    · rw [htable.mem]
      exact htable
    · rw [frees_append, frees_cons_large, frees_nil, List.append_nil, heapindex_setFreeNext,
        heapindex_setSize, heapindex_withCore]
      exact hindex
  · obtain ⟨mem', hrun, hframe'⟩ := newBlocks_full hr' hk hsmall (not_le.mp hfits)
      hturns
    rw [hrun]
    exact .exhausted mem' (hframe.trans hframe') ⟨hall, not_le.mp hfits, hlast (not_le.mp hfits)⟩

variable (hlim : m.heaplimit = lim ∨ m.heaplimit = 0 ∧ lim = 4)
include hlim

/-- After a whole turn without success. -/
theorem more_memory (hall : ∀ y ∈ 0 :: frees cs, (m.heapinfo y).size < k) (turns : Nat) :
    Given m k lim g cs (((do
      let grown ← growLast fuel k
      if grown then do
        let m ← get
        search fuel k start (turns + 1) (m.heapinfo 0).prev
      else do
        let result ← newBlocks fuel k
        pure (.fresh result) : HeapM Found) >>= fun found => match found with
      | .fresh result => pure result
      | .cluster block => takeBlocks block k).run m) := by
  have hlow := hr.low
  have hhigh := hr.high
  have hclusters : ∀ c ∈ cs, c.use = .free → c.size < k := by
    rintro ⟨b, n, use⟩ hc rfl
    have hsize : (m.heapinfo b).size = n := h.entries _ hc
    have hmem : b ∈ frees cs := mem_frees.mpr ⟨_, hc, rfl, rfl⟩
    have := hall b (List.mem_cons_of_mem _ hmem)
    rwa [hsize] at this
  by_cases hend : m.heaplimit ≠ 0 ∧
      (m.heapinfo 0).prev + (m.heapinfo (m.heapinfo 0).prev).size = m.heaplimit
  · have hlimit : m.heaplimit = lim := hlim.resolve_right fun hz => hend.1 hz.1
    obtain ⟨A, n, hcs, hsize⟩ := last_cluster h hlow (hend.2.trans hlimit)
    generalize hb : (m.heapinfo 0).prev = b at hend hcs hsize
    subst hcs
    rw [hsize, hlimit] at hend
    have hn : n < k := hclusters _ (List.mem_append_right _ List.mem_cons_self) rfl
    have hadd : lim + (k - n) = b + k := by omega
    have hpos := h.parts.2.1
    by_cases hfits : b + k ≤ 1024
    · obtain ⟨mem, hgrow, hframe⟩ := growLast_grow hr hb hsize hlimit hend.2 hn
        fuel (by omega)
      rw [hadd] at hgrow
      obtain ⟨m', htake, htable, hblocks, hindex'⟩ :=
        take_grow hr h hn (blockAddr (b + k)) (b + k) mem
      have hlast :
          (((m.withCore (blockAddr (b + k)) (b + k) mem).setSize b k).heapinfo 0).prev = b := by
        rw [prev_setSize, heapinfo_withCore, hb]
      have hnow :
          ¬ (((m.withCore (blockAddr (b + k)) (b + k) mem).setSize b k).heapinfo b).size < k := by
        rw [size_setSize, if_pos rfl]
        exact lt_irrefl k
      have hmem : m'.mem = mem := htable.mem
      rw [bind_assoc, run_bind_some hgrow, if_pos rfl, bind_assoc, run_get_bind, hlast,
        run_bind_some (search_here hnow)]
      dsimp only
      rw [htake]
      refine .taken b (b + k) _ m' (.grow A b n hn hend.2 hfits) ?_ ?_ hblocks hindex'
      · rw [hmem]
        exact hframe
      · rw [hmem]
        exact htable
    · obtain ⟨mem, hgrow, hframe⟩ := growLast_full hr hb hsize hlimit hend.2 hn
        fuel (by omega) (by omega) (by omega)
      have hnew := new_memory hr h hindex hk hsmall hfuel hclusters (fun _ c hc _ => by
        rw [List.getLast?_concat] at hc
        obtain rfl := Option.some_inj.mp hc
        exact not_le.mp hfits) true hframe fun hroom => absurd hroom (by omega)
      rw [bind_assoc, run_bind_some hgrow, if_neg Bool.false_ne_true, bind_assoc]
      simpa using hnew
  · have hskip := growLast_skip (k := k) rfl rfl fuel hend
    have hnew := new_memory hr h hindex hk hsmall hfuel hclusters (fun _ c hc huse => by
      exfalso
      obtain ⟨A, rfl⟩ := List.getLast?_eq_some_iff.mp hc
      obtain ⟨b, n, use⟩ := c
      dsimp only at huse
      subst huse
      obtain ⟨hA, hn, hB⟩ := h.parts
      have hlow' := hA.le
      have hb : (m.heapinfo 0).prev = b := by
        have := h.ring.at_end trivial
        rwa [frees_append, frees_cons_free, frees_nil, List.getLastD_concat] at this
      have hbn : b + n = lim := hB
      have hlimit : m.heaplimit = lim := hlim.resolve_right fun hz => by omega
      refine hend ⟨by omega, ?_⟩
      rw [hb, h.free_cluster.1, hbn, hlimit]) m.warned (fun a _ => rfl) fun _ => rfl
    rw [bind_assoc, run_bind_some hskip, if_neg Bool.false_ne_true, bind_assoc]
    simpa using hnew

/-- Whole blocks are taken from the free clusters or from behind them; that fails only where there
is no room in the heap, and then the heap stays as it is. -/
theorem mallocBlocks_run {size : UInt32} (hsize : blockify size = k) :
    Given m k lim g cs ((mallocBlocks fuel size).run m) := by
  have hlow := hr.low
  have hhigh := hr.high
  obtain ⟨p, q, hsplit⟩ := List.append_of_mem hindex
  have hnodup := (cyclic_nodup h.tiled (by omega)).1
  rw [hsplit] at hnodup
  have hstart : m.heapindex ∉ q ++ p := by
    intro hmem
    rcases List.mem_append.mp hmem with hmem | hmem
    · exact (List.nodup_cons.mp hnodup.of_append_right).1 hmem
    · exact List.disjoint_of_nodup_append hnodup hmem List.mem_cons_self
  have hlength : (q ++ p).length + 2 ≤ fuel := by
    have hall := length_le h.tiled
    have hfrees : (frees cs).length ≤ cs.length := by
      rw [frees, List.length_map]
      exact List.length_filter_le _ _
    have hlen := congrArg List.length hsplit
    rw [List.length_cons, List.length_append, List.length_cons] at hlen
    rw [List.length_append]
    omega
  have hround : ∀ y, y ∈ m.heapindex :: (q ++ p) ↔ y ∈ 0 :: frees cs := by
    intro y
    rw [hsplit]
    simp only [List.mem_cons, List.mem_append]
    tauto
  have hlinked := h.ring.rotate hsplit
  rw [← List.append_assoc] at hlinked
  rw [mallocBlocks, run_get_bind, hsize]
  rcases search_run fuel k hlinked hstart hlength with ⟨y, hy, hfits, hrun⟩ | ⟨hall, turns, hrun⟩
  · have hmem := (hround y).mp hy
    obtain ⟨cs', m', htake, htakes, htable, hblocks, hindex'⟩ := take_split hr h hk hmem hfits
    have hlimit : m.heaplimit = lim := hlim.resolve_right fun hz => by
      rcases List.mem_cons.mp hmem with rfl | hmem
      · rw [h.origin] at hfits
        omega
      · have := frees_bounds h.tiled hmem
        omega
    rw [run_bind_some hrun]
    dsimp only
    rw [htake]
    refine .taken y lim cs' m' htakes ?_ ?_ hblocks hindex'
    · rw [htable.mem]
      exact fun a _ => rfl
    · rw [htable.mem, ← hr.highWater, ← hlimit, withCore_self]
      exact htable
  · rw [run_bind_congr hrun]
    exact more_memory hr h hindex hk hsmall hfuel hlim
      (fun y hy => hall y ((hround y).mpr hy)) turns

end Search

end Malloc
