import CobaltRom.Malloc.Blocks
import CobaltRom.Malloc.Morecore

/-! Whole blocks are given back: the place in the list, the clusters next to it, the end of the
heap. -/
namespace Malloc
open DoubleLink Tiling Hoare

variable {m : Machine} {block i b n lim : Int} {l₁ l₂ p q : List Int} {fuel : Nat}
  {g : Int → List Nat} {A B : List Cluster} {d : Cluster}

/-! ### The free cluster before -/

theorem last_lt (hpos : 0 < block) (h₁ : ∀ x ∈ l₁, x < block) : l₁.getLastD 0 < block := by
  obtain ⟨q, hq⟩ := exists_last 0 l₁
  have hmem : l₁.getLastD 0 ∈ 0 :: l₁ := by
    rw [hq]
    exact List.mem_append_right _ List.mem_cons_self
  rcases List.mem_cons.mp hmem with h | h
  · omega
  · exact h₁ _ h

theorem backTo_run (ht : Ring m.heapinfo (l₁ ++ l₂)) (hpos : 0 < block) (h₁ : ∀ x ∈ l₁, x < block)
    (h₂ : ∀ x ∈ l₂, block < x) (hsplit : l₂ = p ++ i :: q) (hfuel : p.length + 2 ≤ fuel) :
    (backTo block fuel i).run m = some (l₁.getLastD 0, m) := by
  induction p using List.reverseRec generalizing i q fuel with
  | nil =>
    obtain ⟨fuel, rfl⟩ : ∃ k, fuel = k + 1 + 1 := Nat.exists_eq_add_of_le' hfuel
    have hi : block < i := h₂ i (by rw [hsplit]; exact List.mem_cons_self)
    rw [hsplit] at ht
    have hprev : (m.heapinfo i).prev = l₁.getLastD 0 := ht.at_cell.2 trivial
    have hlast := last_lt hpos h₁
    rw [backTo, run_get_bind, if_pos hi, hprev, backTo, run_get_bind, if_neg (by omega)]
    rfl
  | append_singleton p j ih =>
    obtain ⟨fuel, rfl⟩ := Nat.exists_eq_add_of_le' hfuel
    have hi : block < i := h₂ i (by
      rw [hsplit]
      exact List.mem_append_right _ List.mem_cons_self)
    have hprev : (m.heapinfo i).prev = j := by
      rw [hsplit, ← List.append_assoc, ← List.append_assoc] at ht
      have := ht.at_cell.2 trivial
      rwa [List.getLastD_concat] at this
    rw [List.length_append, List.length_singleton, ← Nat.add_assoc, backTo, run_get_bind,
      if_pos hi, hprev]
    exact ih (by rw [hsplit, List.append_assoc]; rfl) (by omega)

theorem forthTo_run (ht : Ring m.heapinfo (l₁ ++ l₂)) (h₁ : ∀ x ∈ l₁, 0 < x ∧ x < block)
    (h₂ : ∀ x ∈ l₂, block < x) (hsplit : 0 :: l₁ = p ++ i :: q) (hfuel : q.length + 1 ≤ fuel) :
    (forthTo block fuel i).run m = some (l₂.headD 0, m) := by
  induction q generalizing p i fuel with
  | nil =>
    obtain ⟨fuel, rfl⟩ := Nat.exists_eq_add_of_le' hfuel
    have hnext : (m.heapinfo i).next = l₂.headD 0 := by
      refine ht.next_at (p := p) (q := l₂) ?_
      rw [← List.cons_append, hsplit, List.append_assoc]
      rfl
    have hstop : ¬ (l₂.headD 0 > 0 ∧ l₂.headD 0 < block) := by
      rcases List.mem_append.mp (headD_mem l₂ 0) with h | h
      · have := h₂ _ h
        omega
      · have := List.mem_singleton.mp h
        omega
    rw [List.length_nil, forthTo, run_get_bind, hnext, if_neg hstop]
    rfl
  | cons j q ih =>
    obtain ⟨fuel, rfl⟩ := Nat.exists_eq_add_of_le' hfuel
    have hnext : (m.heapinfo i).next = j := by
      refine ht.next_at (p := p) (q := j :: q ++ l₂) ?_
      rw [← List.cons_append, hsplit, List.append_assoc]
      rfl
    have hj : j ∈ l₁ := by
      have hmem : j ∈ (0 :: l₁).tail := by
        rw [hsplit]
        cases p with
        | nil => exact List.mem_cons_self
        | cons y p => exact List.mem_append_right _ (List.mem_cons_of_mem _ List.mem_cons_self)
      exact hmem
    rw [List.length_cons, ← Nat.add_assoc, forthTo, run_get_bind, hnext, if_pos (h₁ j hj)]
    exact ih (p := p ++ [i]) (by rw [hsplit, List.append_assoc]; rfl) (by omega)

/-- `free` finds the last free cluster before the block, wherever the search begins. -/
theorem findPrevious_run (ht : Ring m.heapinfo (l₁ ++ l₂)) (h₁ : ∀ x ∈ l₁, 0 < x ∧ x < block)
    (h₂ : ∀ x ∈ l₂, block < x) (hpos : 0 < block) (hindex : m.heapindex ∈ 0 :: (l₁ ++ l₂))
    (hfuel : (l₁ ++ l₂).length + 2 ≤ fuel) :
    (findPrevious fuel block).run m = some (l₁.getLastD 0, m) := by
  rw [List.length_append] at hfuel
  rw [findPrevious, run_get_bind]
  dsimp only
  split
  case isTrue hbehind =>
    have hmem : m.heapindex ∈ l₂ := by
      rcases List.mem_cons.mp hindex with h | h
      · omega
      · rcases List.mem_append.mp h with h | h
        · have := h₁ _ h
          omega
        · exact h
    obtain ⟨p, q, hsplit⟩ := List.append_of_mem hmem
    have hlen := congrArg List.length hsplit
    rw [List.length_append, List.length_cons] at hlen
    exact backTo_run ht hpos (fun x hx => (h₁ x hx).2) h₂ hsplit (by omega)
  case isFalse hbefore =>
    have hmem : m.heapindex ∈ 0 :: l₁ := by
      rcases List.mem_cons.mp hindex with h | h
      · rw [h]
        exact List.mem_cons_self
      · rcases List.mem_append.mp h with h | h
        · exact List.mem_cons_of_mem _ h
        · exact absurd (h₂ _ h) hbefore
    obtain ⟨p, q, hsplit⟩ := List.append_of_mem hmem
    have hlen := congrArg List.length hsplit
    rw [List.length_append, List.length_cons, List.length_cons] at hlen
    rw [run_bind_some (forthTo_run ht h₁ h₂ hsplit (by omega)), run_get_bind]
    obtain ⟨r, hr⟩ := exists_first l₂ 0
    have hprev : (m.heapinfo (l₂.headD 0)).prev = l₁.getLastD 0 := by
      refine ht.prev_at (p := l₁) (q := r) ?_ trivial
      rw [List.append_assoc, hr]
    rw [hprev]
    rfl

/-! ### The clusters around -/

theorem linkBehind_join (h : block = i + (m.heapinfo i).size) :
    (linkBehind block i).run m = some (i, m.setSize i
      ((m.heapinfo i).size + (m.heapinfo block).busySize)) := by
  rw [linkBehind, run_get_bind, if_pos h]
  rfl

theorem linkBehind_link (h : block ≠ i + (m.heapinfo i).size) (hi : block ≠ i) :
    ∃ m', (linkBehind block i).run m = some (block, m') ∧ m' = { m with heapinfo := m'.heapinfo } ∧
      (∀ b, (m'.heapinfo b).size =
        if b = block then (m.heapinfo block).busySize else (m.heapinfo b).size) ∧
      (∀ b, (m'.heapinfo b).next =
        if b = i then block else if b = block then (m.heapinfo i).next else (m.heapinfo b).next) ∧
      (∀ b, (m'.heapinfo b).prev =
        if b = (m.heapinfo i).next then block
        else if b = block then i else (m.heapinfo b).prev) := by
  rw [linkBehind, run_get_bind, if_neg h]
  refine ⟨_, rfl, rfl, fun b => ?_, fun b => ?_, fun b => ?_⟩
  · simp
  · simp [hi]
  · simp [hi]

/-- A free cluster that ends where the block begins is the one before it. -/
theorem free_before (h : Tiled Cluster.start Cluster.size 4 A b) (hd : d ∈ A)
    (hend : d.start + d.size = b) : ∃ A', A = A' ++ [d] := by
  obtain ⟨A', l, rfl⟩ := List.append_of_mem hd
  obtain rfl := h.ends hend
  exact ⟨A', rfl⟩

/-- The block is put on the list, or becomes part of the free cluster before it. -/
theorem Blocks.linkBehind (h : Blocks m.heapinfo lim g (A ++ ⟨b, n, .large⟩ :: B)) :
    ∃ m' A' b' n', (linkBehind b ((frees A).getLastD 0)).run m = some (b', m') ∧
      m' = { m with heapinfo := m'.heapinfo } ∧
      Blocks m'.heapinfo lim g (A' ++ ⟨b', n', .free⟩ :: B) ∧
      b' + n' = b + n ∧ (A = A' ++ [⟨b', b - b', .free⟩] ∨
        A = A' ∧ b' = b ∧ ∀ d ∈ A.getLast?, d.use ≠ .free) := by
  obtain ⟨hA, hn, hB⟩ := h.parts
  have hlow := hA.le
  obtain ⟨hbefore, hbehind⟩ := between hA hn hB
  have hbusy : (m.heapinfo b).busySize = n :=
    (h.entries ⟨b, n, .large⟩ (List.mem_append_right _ List.mem_cons_self)).2
  by_cases hjoin : b = (frees A).getLastD 0 + (m.heapinfo ((frees A).getLastD 0)).size
  · -- the cluster before ends where the block begins
    have hmem : (frees A).getLastD 0 ∈ frees A := by
      rcases List.mem_cons.mp (last_mem A) with h0 | hmem
      · rw [h0, h.origin] at hjoin
        omega
      · exact hmem
    obtain ⟨⟨i, size, use⟩, hd, rfl, hstart⟩ := mem_frees.mp hmem
    dsimp only at hstart
    rw [← hstart] at hjoin ⊢
    have hsize : (m.heapinfo i).size = size := h.entries _ (List.mem_append_left _ hd)
    rw [hsize] at hjoin
    obtain ⟨A', rfl⟩ := free_before hA hd hjoin.symm
    obtain ⟨hA', hpos, -⟩ := hA.around
    rw [List.append_assoc, List.singleton_append] at h
    have hmid := Blocks.middle A' [⟨i, size, .free⟩, ⟨b, n, .large⟩] B h
    refine ⟨_, A', i, size + n, linkBehind_join (by rw [hsize, hjoin]), rfl, ?_, ?_, Or.inl ?_⟩
    · refine Blocks.splice A' [⟨i, size, .free⟩, ⟨b, n, .large⟩]
        [⟨i, size + n, .free⟩] B i (b + n) h
        hA' ⟨rfl, ?_, ?_⟩ hB ⟨?_, ?_, ?_⟩ (fun _ _ => rfl) ?_ ?_
      · dsimp only at hpos ⊢
        omega
      · change i + (size + n) = b + n
        omega
      · intro c hc
        rw [size_setSize, if_neg]
        omega
      · exact fun c _ _ => next_setSize _ _ _
      · exact fun c _ _ => prev_setSize _ _ _
      · intro c hc
        obtain rfl := List.mem_singleton.mp hc
        change ((m.setSize i _).heapinfo i).size = size + n
        rw [size_setSize, if_pos rfl, hsize, hbusy]
      · simpa using hmid
    · omega
    · rw [hjoin, add_sub_cancel_left]
  · obtain ⟨m', hrun, hm', hsize', hnext', hprev'⟩ := linkBehind_link hjoin hbefore.ne'
    have hnext := (linked_pair.mp (Blocks.middle A [⟨b, n, .large⟩] B h)).1.1
    change (m.heapinfo ((frees A).getLastD 0)).next = (frees B).headD 0 at hnext
    rw [hnext] at hnext' hprev'
    refine ⟨m', A, b, n, hrun, hm', ?_, rfl, Or.inr ⟨rfl, rfl, ?_⟩⟩
    · refine Blocks.splice A [⟨b, n, .large⟩] [⟨b, n, .free⟩] B b (b + n) h hA ⟨rfl, hn, rfl⟩ hB
        ⟨?_, ?_, ?_⟩ (fun _ _ => rfl) ?_ ?_
      · intro c hc
        rw [hsize', if_neg (by omega)]
      · intro c hc hp
        rw [hnext', if_neg hp, if_neg (by omega)]
      · intro c hc hp
        rw [hprev', if_neg hp, if_neg (by omega)]
      · intro c hc
        obtain rfl := List.mem_singleton.mp hc
        change (m'.heapinfo b).size = n
        rw [hsize', if_pos rfl, hbusy]
      · refine linked_pair.mpr ⟨⟨?_, fun _ => ?_⟩, linked_pair.mpr ⟨⟨?_, fun _ => ?_⟩,
          linked_single _ _ _ _⟩⟩
        · dsimp only
          rw [hnext', if_pos rfl]
        · dsimp only
          rw [hprev', if_neg hbehind, if_pos rfl]
        · dsimp only
          rw [hnext', if_neg hbefore.ne', if_pos rfl]
        · dsimp only
          rw [hprev', if_pos rfl]
    · rintro ⟨i, size, use⟩ hd rfl
      obtain ⟨A', rfl⟩ := List.getLast?_eq_some_iff.mp hd
      refine hjoin ?_
      have hsize : (m.heapinfo i).size = size :=
        h.entries ⟨i, size, .free⟩ (List.mem_append_left _ (List.mem_append_right _
          List.mem_cons_self))
      obtain ⟨-, -, hend⟩ := hA.around
      change i + size = b at hend
      rw [frees_append, frees_cons_free, frees_nil, List.getLastD_concat, hsize, hend]

theorem mergeNext_merge (h : block + (m.heapinfo block).size = (m.heapinfo block).next) :
    ∃ m', (mergeNext block).run m = some ((), m') ∧ m' = { m with heapinfo := m'.heapinfo } ∧
      (∀ b, (m'.heapinfo b).size = if b = block then
        (m.heapinfo block).size + (m.heapinfo (m.heapinfo block).next).size
          else (m.heapinfo b).size) ∧
      (∀ b, (m'.heapinfo b).next = if b = block then (m.heapinfo (m.heapinfo block).next).next
        else (m.heapinfo b).next) ∧
      (∀ b, (m'.heapinfo b).prev = if b = (m.heapinfo (m.heapinfo block).next).next then block
        else (m.heapinfo b).prev) := by
  rw [mergeNext, run_get_bind, if_pos h]
  refine ⟨_, rfl, rfl, fun b => ?_, fun b => ?_, fun b => ?_⟩
  · simp
  · simp
  · simp

/-- A free cluster behind becomes part of the cluster. -/
theorem Blocks.mergeNext (h : Blocks m.heapinfo lim g (A ++ ⟨b, n, .free⟩ :: B)) :
    ∃ m' n' B', (mergeNext b).run m = some ((), m') ∧ m' = { m with heapinfo := m'.heapinfo } ∧
      Blocks m'.heapinfo lim g (A ++ ⟨b, n', .free⟩ :: B') ∧
      (B = ⟨b + n, n' - n, .free⟩ :: B' ∨ B = B' ∧ n' = n ∧ ∀ d ∈ B.head?, d.use ≠ .free) := by
  obtain ⟨hA, hn, hB⟩ := h.parts
  obtain ⟨hsize, hnext, -⟩ := h.free_cluster
  have hlow := hA.le
  by_cases hmerge : b + n = (frees B).headD 0
  · have hmem : (frees B).headD 0 ∈ frees B := by
      rcases first_mem B with h0 | hmem
      · omega
      · exact hmem
    obtain ⟨⟨i, size, use⟩, hd, rfl, hstart⟩ := mem_frees.mp hmem
    dsimp only at hstart
    obtain ⟨l, B', rfl⟩ := List.append_of_mem hd
    obtain rfl := hB.begins (hstart.trans hmerge.symm)
    rw [List.nil_append] at h hnext hmerge hB ⊢
    rw [frees_cons_free, List.headD_cons] at hnext hmerge
    subst hmerge
    obtain ⟨-, hpos, hB'⟩ := hB
    change 0 < size at hpos
    have hcell :
        Blocks m.heapinfo lim g ((A ++ [⟨b, n, .free⟩]) ++ ⟨b + n, size, .free⟩ :: B') := by
      rw [List.append_assoc]
      exact h
    obtain ⟨hsize', hnext', -⟩ := hcell.free_cluster
    have hmid := Blocks.middle A [⟨b, n, .free⟩, ⟨b + n, size, .free⟩] B' h
    have hpb := (linked_pair.mp hmid).1
    have hstep : b + (m.heapinfo b).size = (m.heapinfo b).next := by rw [hsize, hnext]
    obtain ⟨m', hrun, hm', hs, hx, hp⟩ := mergeNext_merge hstep
    rw [hnext, hsize, hsize'] at hs
    rw [hnext, hnext'] at hx hp
    have hB'' : Tiled Cluster.start Cluster.size (b + (n + size)) B' lim := by
      rw [← add_assoc]
      exact hB'
    obtain ⟨hbefore, hbehind⟩ := between hA (by omega) hB''
    refine ⟨m', n + size, B', hrun, hm', ?_, Or.inl ?_⟩
    · refine Blocks.splice A [⟨b, n, .free⟩, ⟨b + n, size, .free⟩] [⟨b, n + size, .free⟩] B' b
        (b + (n + size)) h hA ⟨rfl, by dsimp only; omega, rfl⟩ hB'' ⟨?_, ?_, ?_⟩
        (fun _ _ => rfl) ?_ ?_
      · intro c hc
        rw [hs, if_neg (by omega)]
      · intro c hc _
        rw [hx, if_neg (by omega)]
      · intro c hc hne
        rw [hp, if_neg hne]
      · intro c hc
        obtain rfl := List.mem_singleton.mp hc
        change (m'.heapinfo b).size = n + size
        rw [hs, if_pos rfl]
      · refine linked_pair.mpr ⟨⟨?_, fun _ => ?_⟩, linked_pair.mpr ⟨⟨?_, fun _ => ?_⟩,
          linked_single _ _ _ _⟩⟩
        · dsimp only
          rw [hx, if_neg hbefore.ne]
          exact hpb.1
        · dsimp only
          rw [hp, if_neg hbehind]
          exact hpb.2 trivial
        · dsimp only
          rw [hx, if_pos rfl]
        · dsimp only
          rw [hp, if_pos rfl]
    · rw [add_sub_cancel_left]
  · refine ⟨m, n, B, ?_, rfl, h, Or.inr ⟨rfl, rfl, ?_⟩⟩
    · rw [Malloc.mergeNext, run_get_bind, if_neg (by rw [hsize, hnext]; exact hmerge)]
      rfl
    · rintro ⟨i, size, use⟩ hd rfl
      obtain ⟨B', rfl⟩ := List.head?_eq_some_iff.mp hd
      refine hmerge ?_
      rw [frees_cons_free, List.headD_cons]
      exact hB.1.symm

/-! ### The end of the heap -/

theorem returnTail_stay (h : ¬ ((m.heapinfo b).size ≥ finalFreeBlocks ∧
    b + (m.heapinfo b).size = m.heaplimit)) : (returnTail b).run m = some (b, m) := by
  rw [returnTail, run_get_bind]
  dsimp only
  rw [if_neg h]
  rfl

theorem returnTail_return (hr : Ready m lim) (hsize : (m.heapinfo b).size ≥ finalFreeBlocks)
    (hend : b + (m.heapinfo b).size = m.heaplimit) (hlim : m.heaplimit = lim) (hpos : 4 ≤ b)
    (hp : (m.heapinfo b).prev ≠ b) (hn : (m.heapinfo b).next ≠ b) :
    ∃ m', (returnTail b).run m = some ((m.heapinfo b).prev, m') ∧
      m' = { m with heaplimit := b, highWater := blockAddr b, heapinfo := m'.heapinfo } ∧
      (∀ c, (m'.heapinfo c).size = (m.heapinfo c).size) ∧
      (∀ c, (m'.heapinfo c).next =
        if c = (m.heapinfo b).prev then (m.heapinfo b).next else (m.heapinfo c).next) ∧
      (∀ c, (m'.heapinfo c).prev =
        if c = (m.heapinfo b).next then (m.heapinfo b).prev else (m.heapinfo c).prev) := by
  have hhigh := hr.high
  have hlow := hr.low
  have hfinal : finalFreeBlocks = 8 := rfl
  have hbegin : lim - (m.heapinfo b).size = b := by omega
  have hlimit : { m with heaplimit := m.heaplimit - (m.heapinfo b).size } =
      { m with heaplimit := b } := by rw [hlim, hbegin]
  have hgive : (defaultMorecore (UInt32.ofInt (-(m.heapinfo b).size * 4096))).run
      { m with heaplimit := b } = some (blockAddr lim, { m with
        heaplimit := b, highWater := blockAddr (lim - (m.heapinfo b).size) }) :=
    less_run hr.highWater (by omega) (by omega) (by omega)
  rw [hbegin] at hgive
  generalize blockAddr b = brk at hgive ⊢
  rw [returnTail, run_get_bind]
  dsimp only
  rw [if_pos ⟨hsize, hend⟩, run_bind_some (ask_run hr.highWater (by omega) (by omega)),
    address_eq hr.heapbase, hend, hlim, if_pos rfl]
  rw [run_modify_bind, hlimit, run_bind_some hgive, run_modify_bind, run_modify_bind, run_get_bind]
  have hinfo : ∀ (s : Machine) (p v q w : Int), (s.setFreeNext p v).setFreePrev q w =
      { s with heapinfo := ((s.setFreeNext p v).setFreePrev q w).heapinfo } := fun _ _ _ _ _ => rfl
  refine ⟨_, congrArg (fun v => some (v, _)) ?_, hinfo _ _ _ _ _, fun c => ?_, fun c => ?_,
    fun c => ?_⟩
  · simp [hn.symm]
  · simp
  · simp
  · simp [hp.symm]

/-- Where the last cluster is free and large, it is returned to the system. -/
theorem Blocks.returnTail (hr : Ready m lim) (h : Blocks m.heapinfo lim g (A ++ ⟨b, n, .free⟩ :: B))
    (hlim : m.heaplimit = lim ∨ m.heaplimit = 0) :
    (returnTail b).run m = some (b, m) ∨
      B = [] ∧ m.heaplimit = lim ∧ ∃ m', (returnTail b).run m = some ((frees A).getLastD 0, m') ∧
        m' = { m with heaplimit := b, highWater := blockAddr b, heapinfo := m'.heapinfo } ∧
        Blocks m'.heapinfo b g A := by
  obtain ⟨hA, hn, hB⟩ := h.parts
  obtain ⟨hsize, hnext, hprev⟩ := h.free_cluster
  have hlow := hA.le
  obtain ⟨hbefore, hbehind⟩ := between hA hn hB
  by_cases hlast : (m.heapinfo b).size ≥ finalFreeBlocks ∧ b + (m.heapinfo b).size = m.heaplimit
  · have hlim : m.heaplimit = lim := by omega
    obtain rfl : B = [] := h.tiled.ends (by
      change b + n = lim
      omega)
    refine Or.inr ⟨rfl, hlim, ?_⟩
    obtain ⟨m', hrun, hm', hs, hx, hp⟩ := returnTail_return hr hlast.1 hlast.2 hlim hlow
      (by rw [hprev]; exact hbefore.ne) (by rw [hnext]; exact hbehind.symm)
    rw [hprev] at hrun hx hp
    rw [hnext] at hx hp
    refine ⟨m', hrun, hm', ?_⟩
    have hsplice : Blocks m'.heapinfo b g (A ++ ([] ++ [])) := by
      refine Blocks.splice A [⟨b, n, .free⟩] [] [] b b h hA rfl rfl ⟨?_, ?_, ?_⟩
        (fun _ _ => rfl) ?_ ?_
      · exact fun c _ => hs c
      · intro c _ hne
        rw [hx, if_neg hne]
      · intro c _ hne
        rw [hp]
        exact if_neg hne
      · intro c hc
        cases hc
      · refine linked_pair.mpr ⟨⟨?_, fun _ => ?_⟩, linked_single _ _ _ _⟩
        · rw [hx, if_pos rfl]
        · rw [hp]
          exact if_pos rfl
    simpa using hsplice
  · exact Or.inl (returnTail_stay hlast)

/-! ### All of it -/

/-- The block `b` of `n` blocks and the free clusters on both sides of it become one. -/
structure Joined (A : List Cluster) (b n : Int) (B A' : List Cluster) (b' n' : Int)
    (B' : List Cluster) : Prop where
  before : A = A' ++ [⟨b', b - b', .free⟩] ∨ A = A' ∧ b' = b ∧ ∀ d ∈ A.getLast?, d.use ≠ .free
  behind : B = ⟨b + n, b' + n' - (b + n), .free⟩ :: B' ∨
    B = B' ∧ b' + n' = b + n ∧ ∀ d ∈ B.head?, d.use ≠ .free

/-- Side by side with what has been joined there is no free cluster. -/
theorem Joined.apart {A' B' : List Cluster} {b' n' : Int} (hj : Joined A b n B A' b' n' B')
    (h : Apart (A ++ ⟨b, n, .large⟩ :: B)) : Apart (A' ++ ⟨b', n', .free⟩ :: B') := by
  obtain ⟨hA, hB⟩ := (apart_busy (by simp)).mp h
  refine apart_free.mpr ⟨?_, ?_⟩
  · rcases hj.before with rfl | ⟨rfl, -, hlast⟩
    · exact (apart_free.mp hA).1
    · exact ⟨hA, hlast⟩
  · rcases hj.behind with rfl | ⟨rfl, -, hfirst⟩
    · exact (apart_free (A := []).mp hB).2
    · exact ⟨hB, hfirst⟩

theorem freeBlocks_run (hr : Ready m lim)
    (h : Blocks m.heapinfo lim g (A ++ ⟨b, n, .large⟩ :: B))
    (hlim : m.heaplimit = lim ∨ m.heaplimit = 0) (hindex : m.heapindex ∈ 0 :: (frees A ++ frees B))
    (hfuel : 1024 < fuel) :
    ∃ m' A' b' n' B', (freeBlocks fuel (blockAddr b)).run m = some ((), m') ∧
      Joined A b n B A' b' n' B' ∧
      (m' = { m with heapindex := b', heapinfo := m'.heapinfo } ∧
          Blocks m'.heapinfo lim g (A' ++ ⟨b', n', .free⟩ :: B') ∨
        B' = [] ∧ m.heaplimit = lim ∧
          m' = { m with
            heaplimit := b', highWater := blockAddr b', heapindex := (frees A').getLastD 0
            heapinfo := m'.heapinfo } ∧
          Blocks m'.heapinfo b' g A') := by
  obtain ⟨hA, hn, hB⟩ := h.parts
  have hlow := hA.le
  have hend := hB.le
  have hhigh := hr.high
  have hring := h.ring
  rw [frees_append, frees_cons_large] at hring
  have hlength : (frees A ++ frees B).length + 2 ≤ fuel := by
    have hall := length_le h.tiled
    have hfrees : (frees A ++ frees B).length ≤ (A ++ ⟨b, n, .large⟩ :: B).length := by
      rw [← frees_cons_large b n B, ← frees_append, frees, List.length_map]
      exact List.length_filter_le _ _
    omega
  have hfind := findPrevious_run hring (fun x hx => ⟨by have := (frees_bounds hA hx).1; omega,
    (frees_bounds hA hx).2⟩) (fun x hx => by have := (frees_bounds hB hx).1; omega) (by omega)
    hindex hlength
  obtain ⟨m₁, A', b', n₁, hlink, hm₁, hb₁, hends₁, hbefore⟩ := h.linkBehind
  obtain ⟨m₂, n', B', hmerge, hm₂, hb₂, hbehind⟩ := hb₁.mergeNext
  have hr₂ : Ready m₂ lim := by
    rw [hm₂, hm₁]
    exact ⟨hr.initialized, hr.heapbase, hr.heapsize, hr.highWater, hr.placed, hr.low, hr.high⟩
  have hlim₂ : m₂.heaplimit = m.heaplimit := by rw [hm₂, hm₁]
  have hjoined : Joined A b n B A' b' n' B' := by
    refine ⟨hbefore, ?_⟩
    rcases hbehind with hB' | ⟨hB', hn', hfirst⟩
    · refine Or.inl ?_
      rw [hB', hends₁, ← hends₁, add_sub_add_left_eq_sub]
    · exact Or.inr ⟨hB', by rw [hn', hends₁], hfirst⟩
  have hrun : ∀ c s, (Malloc.returnTail b').run m₂ = some (c, s) →
      (freeBlocks fuel (blockAddr b)).run m = some ((), { s with heapindex := c }) := by
    intro c s hs
    rw [freeBlocks, if_neg (blockAddr_ne_zero (by omega) (by omega)), run_get_bind,
      block_blockAddr hr.heapbase (by omega) (by omega), run_bind_some hfind, run_bind_some hlink,
      run_bind_some hmerge, run_bind_some hs]
    rfl
  rw [← hlim₂] at hlim
  rcases hb₂.returnTail hr₂ hlim with hs | ⟨rfl, hlimit, m₃, hs, hm₃, hb₃⟩
  · refine ⟨_, A', b', n', B', hrun _ _ hs, hjoined, Or.inl ⟨?_, hb₂⟩⟩
    rw [hm₂, hm₁]
  · refine ⟨_, A', b', n', [], hrun _ _ hs, hjoined, Or.inr ⟨rfl, ?_, ?_, hb₃⟩⟩
    · rw [← hlim₂, hlimit]
    · rw [hm₃, hm₂, hm₁]

end Malloc
