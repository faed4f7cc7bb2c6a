import CobaltRom.Malloc.Whole

/-! Blocks are broken into fragments, and given back when all their fragments are free. -/
namespace Malloc
open DoubleLink Tiling Hoare

variable {m m' : Machine} {s s' : Shape} {b k : Int} {log log' i count : Nat} {fuel : Nat}
  {A B cs : List Cluster} {use use' : Use} {g gr : List Nat} {o : List Int} {a h n p x : UInt32}

/-! ### Another use of a block -/

theorem fragBlocks_around (log : Nat) (A B : List Cluster) (b : Int) (use : Use) :
    fragBlocks log (A ++ ⟨b, 1, use⟩ :: B) =
      fragBlocks log A ++ ((if use = .frag log then [b] else []) ++ fragBlocks log B) := by
  rw [fragBlocks_append]
  by_cases h : use = .frag log <;> simp [fragBlocks, h]

theorem other_fragBlocks (use use' : Use) {x : Int} (hx : x ≠ b) :
    x ∈ fragBlocks log (A ++ ⟨b, 1, use⟩ :: B) ↔ x ∈ fragBlocks log (A ++ ⟨b, 1, use'⟩ :: B) := by
  rw [fragBlocks_around, fragBlocks_around]
  split <;> split <;> simp [hx]

/-- Block `b` is used otherwise; its free fragments, and the blocks on the list of its size, are as
they are given. -/
def Shape.withUse (s : Shape) (A : List Cluster) (b : Int) (use : Use) (B : List Cluster)
    (gr : List Nat) (log : Nat) (o : List Int) : Shape :=
  { s with
    clusters := A ++ ⟨b, 1, use⟩ :: B
    group := Function.update s.group b gr
    order := Function.update s.order log o }

/-- After a block has been given another use, with its entry and its list. -/
theorem Describes.withUse (hd : Describes m s) (hs : s.clusters = A ++ ⟨b, 1, use⟩ :: B)
    (huse : use ≠ .free) (huse' : use' ≠ .free)
    (hm : m' = { m with
      fragblocks := Function.update m.fragblocks log k, mem := m'.mem, heapinfo := m'.heapinfo })
    (hinfo : ∀ c, c ≠ b → m'.heapinfo c = m.heapinfo c)
    (hentry : Entry (m'.heapinfo b) gr ⟨b, 1, use'⟩)
    (hsizes : ∀ log' ≠ log, use ≠ .frag log' ∧ use' ≠ .frag log') (hnodup : gr.Nodup)
    (hinside : ∀ i ∈ gr, i < 2 ^ (12 - log)) (horders : o.Nodup)
    (hlisted : ∀ x, x ∈ o ↔ x ∈ fragBlocks log (A ++ ⟨b, 1, use'⟩ :: B) ∧
      if x = b then gr ≠ [] else s.group x ≠ [])
    (hcount : k = (fragBlocks log (A ++ ⟨b, 1, use'⟩ :: B)).length)
    (hlist : log < 12 →
      Fragments m' (m.fraghead log) ((s.withUse A b use' B gr log o).nodes log))
    (hlists : ∀ log' ≠ log, log' < 12 → Fragments m' (m.fraghead log') (s.nodes log')) :
    Describes m' (s.withUse A b use' B gr log o) := by
  have hgroup : ∀ x, x ≠ b → (s.withUse A b use' B gr log o).group x = s.group x := fun x hx => by
    simp [Shape.withUse, hx]
  have hgroup_b : (s.withUse A b use' B gr log o).group b = gr := by simp [Shape.withUse]
  have horder : ∀ log' ≠ log, (s.withUse A b use' B gr log o).order log' = s.order log' :=
    fun log' hne => by simp [Shape.withUse, hne]
  have horder_log : (s.withUse A b use' B gr log o).order log = o := by simp [Shape.withUse]
  have hblocks := hd.blocks
  have hapart := hd.apart
  have hindex := hd.index
  rw [hs] at hblocks hapart hindex
  have hmem_b : ∀ log', b ∈ fragBlocks log' s.clusters → use = .frag log' := by
    intro log' hmem
    obtain ⟨c, hc, hcuse, hstart⟩ := mem_fragBlocks.mp hmem
    have hb : (⟨b, 1, use⟩ : Cluster) ∈ s.clusters := by
      rw [hs]
      exact List.mem_append_right _ List.mem_cons_self
    have hpos := (hd.blocks.tiled.mem hc).2.1
    have heq : c = ⟨b, 1, use⟩ := hd.blocks.tiled.unique hc hb (by dsimp only; omega)
      (by dsimp only; omega)
    rw [heq] at hcuse
    exact hcuse
  refine ⟨?_, ?_, ?_, (apart_busy huse').mpr ((apart_busy huse).mp hapart), ?_⟩
  · have hr := hd.ready
    rw [hm]
    exact ⟨hr.initialized, hr.heapbase, hr.heapsize, hr.highWater, hr.placed, hr.low, hr.high⟩
  · refine hblocks.reuse huse huse' rfl rfl hinfo hgroup ?_
    rw [hgroup_b]
    exact hentry
  · refine hd.frags.change log b ?_ ?_ hgroup ?_ ?_ horder ?_ ?_ ?_ ?_ ?_ hlist hlists
    · intro log' hne
      rw [hs, fragBlocks_around, if_neg (hsizes log' hne).1]
      exact (fragBlocks_around log' A B b use').trans (by rw [if_neg (hsizes log' hne).2])
    · exact fun log' hne hmem => (hsizes log' hne).1 (hmem_b log' hmem)
    · rw [hgroup_b]
      exact hnodup
    · intro x hx i hi
      by_cases hxb : x = b
      · rw [hxb, hgroup_b] at hi
        exact hinside i hi
      · rw [hgroup x hxb] at hi
        refine hd.frags.inside log x ?_ i hi
        rw [hs]
        exact (other_fragBlocks use' use hxb).mp hx
    · rw [horder_log]
      exact horders
    · intro x
      rw [horder_log, hlisted x]
      refine and_congr_right fun _ => ?_
      by_cases hxb : x = b
      · rw [if_pos hxb, hxb, hgroup_b]
      · rw [if_neg hxb, hgroup x hxb]
    · rw [hm]
      exact (Function.update_self log k m.fragblocks).trans hcount
    · intro log' hne
      rw [hm]
      exact Function.update_of_ne hne k m.fragblocks
    · rw [hm]
  · have hheap : m'.heapindex = m.heapindex := by rw [hm]
    rw [hheap]
    change _ ∈ 0 :: frees (A ++ ⟨b, 1, use'⟩ :: B)
    rw [frees_append, frees_cons_busy huse] at hindex
    rw [frees_append, frees_cons_busy huse']
    exact hindex

theorem spread_withUse (hb : b ∉ o) (o' : List Int) :
    (s.withUse A b use B gr log o').spread log o = s.spread log o := by
  refine spread_congr fun x hx => ?_
  have hne : x ≠ b := fun he => hb (he ▸ hx)
  rw [Shape.withUse]
  dsimp only
  rw [Function.update_of_ne hne]

theorem nodes_withUse : (s.withUse A b use B gr log o).nodes log =
    (s.withUse A b use B gr log o).spread log o := by simp [Shape.withUse, nodes_eq_spread]

/-! ### Where the code finds a fragment -/

theorem shift_index (hlog : log < 12) (i : Nat) :
    (.ofNat i : UInt32) <<< (.ofNat log : UInt32) = .ofNat (i * 2 ^ log) := by
  refine UInt32.toNat_inj.mp ?_
  rw [UInt32.toNat_shiftLeft, UInt32.toNat_ofNat', UInt32.toNat_ofNat', UInt32.toNat_ofNat',
    Nat.mod_eq_of_lt (by omega : log < 2 ^ 32), Nat.mod_eq_of_lt (by omega : log < 32),
    Nat.shiftLeft_eq, Nat.mod_mul_mod]

theorem first_address (hbase : m.heapbase = ramHeapSpace) (hlog : log < 12)
    (hfirst : (m.heapinfo b).first = i) :
    m.address b + UInt32.ofInt (m.heapinfo b).first <<< (.ofNat log : UInt32) =
    fragAddr b log i := by
  have hofInt : UInt32.ofInt (i : Int) = .ofNat i := UInt32.toNat_inj.mp (by
    unfold UInt32.ofInt
    rw [UInt32.toNat_ofNat', UInt32.toNat_ofNat']
    omega)
  rw [hfirst, address_eq hbase, hofInt, shift_index hlog, fragAddr]

theorem fragment_count (hlog : log ≤ 12) : 4096 >>> log = 2 ^ (12 - log) := by
  rw [Nat.shiftRight_eq_div_pow, show 4096 = 2 ^ 12 from rfl, Nat.pow_div hlog (by decide)]

/-! ### All fragments of a block are free -/

/-- The walk from a cell over the ones behind it. -/
theorem listAfter_run (mid : List UInt32) {l₁ l₂ : List UInt32}
    (hf : Fragments m h (l₁ ++ x :: (mid ++ l₂))) :
    listAfter m (mid.length + 1) x = l₂.headD 0 := by
  induction mid generalizing x l₁ with
  | nil =>
    change m.listNext x = _
    exact hf.at_cell.1
  | cons y mid ih =>
    have hnext : m.listNext x = y := hf.at_cell.1
    change listAfter m (mid.length + 1) (m.listNext x) = _
    rw [hnext]
    have hrest : Fragments m h ((l₁ ++ [x]) ++ y :: (mid ++ l₂)) := by
      rw [List.append_assoc]
      exact hf
    exact ih hrest

theorem dropFragments_run (hp : Placed m.fragheads) (ha : Cell m.fragheads a)
    (hx : Cell m.fragheads x) (hafter : listAfter m (4096 >>> log - 1) x = n)
    (hprev : m.listPrev x = a) : (dropFragments log x).run m = some ((), linkOver m a n) := by
  have hprev' : (m.setNext a n).listPrev x = a := by
    rw [listPrev_setNext hp ha hx, hprev]
  rw [dropFragments, run_get_bind]
  dsimp only
  rw [hafter, run_modify_bind, hprev, linkOver]
  split
  case isTrue hne =>
    change some ((), Machine.setPrev _ _ _) = _
    rw [hprev']
  case isFalse => rfl

theorem linkOver_mem (h : m'.mem = m.mem) : (linkOver m' a n).mem = (linkOver m a n).mem := by
  unfold linkOver Machine.setNext Machine.setPrev
  rw [h]
  split <;> rfl

theorem linkOver_same (m : Machine) (a n : UInt32) :
    linkOver m a n = { m with mem := (linkOver m a n).mem } := by
  unfold linkOver
  split <;> rfl

/-- The list without the fragments of the block, and the block whole. -/
theorem dropFragments_describes (hd : Describes m s) (hlog : log < 12)
    (hs : s.clusters = A ++ ⟨b, 1, .frag log⟩ :: B) (hg : s.group b = i :: gr)
    (hcount : gr.length + 2 = 2 ^ (12 - log)) :
    ∃ m₁ o, (dropFragments log (fragAddr b log i)).run { m with
        fragblocks := Function.update m.fragblocks log (m.fragblocks log - 1) } = some ((), m₁) ∧
      m₁.heapbase = m.heapbase ∧ m₁.heaplimit = m.heaplimit ∧
      Describes ((m₁.setType b 0).setBusySize b 1) (s.withUse A b .large B [] log o) ∧
      OnlyCells (m.fraghead log :: s.nodes log) m.mem m₁.mem := by
  have hf := hd.frags
  have hr := hd.ready
  have hb : b ∈ fragBlocks log s.clusters := by
    rw [hs, fragBlocks_around, if_pos rfl]
    exact List.mem_append_right _ List.mem_cons_self
  have hbo : b ∈ s.order log := (hf.listed log b).mpr ⟨hb, by rw [hg]; exact List.cons_ne_nil i gr⟩
  obtain ⟨o₁, o₂, ho⟩ := List.append_of_mem hbo
  have hnodup := hf.orders log
  rw [ho] at hnodup
  have hb₁ : b ∉ o₁ := fun he => List.disjoint_of_nodup_append hnodup he List.mem_cons_self
  have hb₂ : b ∉ o₂ := (List.nodup_cons.mp hnodup.of_append_right).1
  have hnodes : s.nodes log = s.spread log o₁ ++
      ((fragAddr b log i :: gr.map (fragAddr b log)) ++ s.spread log o₂) := by
    rw [nodes_eq_spread, ho, spread_append, spread_cons, hg]
    rfl
  obtain ⟨hdropped, hnew, hothers, hframe⟩ := linkOver_lists hr hd.blocks hf hlog hnodes
  have hcells := list_cells hr hd.blocks hf hlog
  have hlast := last_listed (m.fraghead log) (s.spread log o₁)
    ((fragAddr b log i :: gr.map (fragAddr b log)) ++ s.spread log o₂)
  rw [← hnodes] at hlast
  have hmem_x : fragAddr b log i ∈ m.fraghead log :: s.nodes log := by
    rw [hnodes]
    exact List.mem_cons_of_mem _ (List.mem_append_right _ List.mem_cons_self)
  have hx0 : fragAddr b log i ≠ 0 := by
    have hi := hf.inside log b hb i (by rw [hg]; exact List.mem_cons_self)
    exact (used_cell hd hlog hb hi).2
  generalize hm₀ : ({ m with
    fragblocks := Function.update m.fragblocks log (m.fragblocks log - 1) } : Machine) = m₀
  have hheads : m₀.fragheads = m.fragheads := by rw [← hm₀]
  have hmem₀ : m₀.mem = m.mem := by rw [← hm₀]
  have hlist : Fragments m₀ (m.fraghead log) _ := (hf.lists log hlog).of_mem hmem₀
  rw [hnodes] at hlist
  have hafter : listAfter m₀ (4096 >>> log - 1) (fragAddr b log i) = (s.spread log o₂).headD 0 := by
    have hwalk := listAfter_run (gr.map (fragAddr b log)) hlist
    rw [List.length_map] at hwalk
    rwa [fragment_count hlog.le, ← hcount]
  have hrun := dropFragments_run (by rw [hheads]; exact hr.placed)
    (by rw [hheads]; exact hcells _ hlast) (by rw [hheads]; exact hcells _ hmem_x) hafter
    (hlist.at_cell.2 hx0)
  have hmem₁ := linkOver_mem (a := (s.spread log o₁).getLastD (m.fraghead log))
    (n := (s.spread log o₂).headD 0) hmem₀
  have hsame := linkOver_same m₀ ((s.spread log o₁).getLastD (m.fraghead log))
    ((s.spread log o₂).headD 0)
  generalize linkOver m₀ _ _ = m₁ at hrun hmem₁ hsame
  rw [← hm₀] at hsame
  have htable : OnlyTable m₁ ((m₁.setType b 0).setBusySize b 1) :=
    (OnlyTable.refl m₁).setSize.setFreeNext
  have hinfo : m₁.heapinfo = m.heapinfo := by rw [hsame]
  refine ⟨m₁, o₁ ++ o₂, hrun, by rw [hsame], by rw [hsame], ?_, by rw [hmem₁]; exact hframe⟩
  have hfb := hf.counts log
  rw [hs, fragBlocks_around, if_pos rfl, List.length_append, List.length_append] at hfb
  refine hd.withUse (k := m.fragblocks log - 1) hs (by simp) (by simp) ?_ ?_ ⟨?_, ?_⟩ ?_
    List.nodup_nil (by simp) ?_ ?_ ?_ ?_ ?_
  · rw [hsame]
    rfl
  · intro c hc
    rw [heapinfo_setFreeNext_ne _ hc, heapinfo_setSize_ne _ hc, hinfo]
  · simp
  · simp
  · exact fun log' hne => ⟨fun heq => hne (Use.frag.inj heq).symm, by simp⟩
  · exact hnodup.sublist ((List.sublist_cons_self b o₂).append_left o₁)
  · intro x
    by_cases hx : x = b
    · rw [if_pos hx, hx]
      refine iff_of_false (fun hmem => ?_) fun hmem => hmem.2 rfl
      exact (List.mem_append.mp hmem).elim hb₁ hb₂
    · rw [if_neg hx, other_fragBlocks .large (.frag log) hx, ← hs, ← hf.listed log x, ho]
      simp [hx]
  · rw [fragBlocks_around, if_neg (by simp), hfb, List.length_append, List.length_append]
    simp only [List.length_singleton, List.length_nil]
    omega
  · intro _
    rw [nodes_withUse, spread_append, spread_withUse hb₁, spread_withUse hb₂]
    refine hnew.of_mem ?_
    rw [htable.mem, hmem₁]
  · intro log' hne hlog'
    refine (hothers log' hne hlog').of_mem ?_
    rw [htable.mem, hmem₁]

/-! ### A new block of fragments -/

/-- `k`, …, 2, 1. -/
def downFrom : Nat → List Nat
  | 0 => []
  | k + 1 => (k + 1) :: downFrom k

theorem length_downFrom (k : Nat) : (downFrom k).length = k := by
  induction k with
  | zero => rfl
  | succ k ih => rw [downFrom, List.length_cons, ih]

theorem mem_downFrom {k j : Nat} : j ∈ downFrom k ↔ 0 < j ∧ j ≤ k := by
  induction k with
  | zero =>
    rw [downFrom]
    simp
    omega
  | succ k ih =>
    rw [downFrom, List.mem_cons, ih]
    omega

theorem nodup_downFrom (k : Nat) : (downFrom k).Nodup := by
  induction k with
  | zero => exact List.nodup_nil
  | succ k ih =>
    refine List.nodup_cons.mpr ⟨fun hmem => ?_, ih⟩
    have := (mem_downFrom.mp hmem).2
    omega

/-- The cells of a block. -/
def blockCells (b : Int) (log : Nat) : List UInt32 :=
  (List.range (2 ^ (12 - log))).map (fragAddr b log)

theorem mem_blockCells : x ∈ blockCells b log ↔ ∃ i < 2 ^ (12 - log), fragAddr b log i = x := by
  simp [blockCells]

/-- The fragments are put on an empty list one by one. -/
theorem linkFragments_run (hp : Placed m.fragheads) (hb : 4 ≤ b ∧ b < 1024) (hlog3 : 3 ≤ log)
    (hlog : log < 12) (left k : Nat) (hleft : k + left < 2 ^ (12 - log))
    (hlist : Fragments m (m.fraghead log) ((downFrom k).map (fragAddr b log))) :
    ∃ m', (linkFragments log (blockAddr b) left (k + 1)).run m = some ((), m') ∧
      m' = { m with mem := m'.mem } ∧
      Fragments m' (m.fraghead log) ((downFrom (k + left)).map (fragAddr b log)) ∧
      (∀ h l, (∀ c ∈ h :: l, Cell m.fragheads c) →
        (∀ c ∈ m.fraghead log :: blockCells b log, c ∉ h :: l) → Fragments m h l →
        Fragments m' h l) ∧
      OnlyCells (m.fraghead log :: blockCells b log) m.mem m'.mem := by
  induction left generalizing m k with
  | zero => exact ⟨m, rfl, rfl, hlist, fun _ _ _ _ hf => hf, fun _ _ => rfl⟩
  | succ left ih =>
    have hinside : ∀ j ∈ downFrom k, j < 2 ^ (12 - log) := fun j hj => by
      have := (mem_downFrom.mp hj).2
      omega
    have hcell_head : Cell m.fragheads (m.fraghead log) := Or.inl ⟨log, hlog, rfl⟩
    have hcell : ∀ j < 2 ^ (12 - log), Cell m.fragheads (fragAddr b log j) := fun j hj =>
      cell_fragAddr hb hlog3 hlog hj m.fragheads
    have hcells : ∀ c ∈ m.fraghead log :: (downFrom k).map (fragAddr b log),
        Cell m.fragheads c := by
      intro c hc
      rcases List.mem_cons.mp hc with rfl | hc
      · exact hcell_head
      · obtain ⟨j, hj, rfl⟩ := List.mem_map.mp hc
        exact hcell j (hinside j hj)
    have hk : k + 1 < 2 ^ (12 - log) := by omega
    have hx := hcell (k + 1) hk
    have hmem_x : fragAddr b log (k + 1) ∈ blockCells b log := mem_blockCells.mpr ⟨k + 1, hk, rfl⟩
    have hfresh : fragAddr b log (k + 1) ∉ m.fraghead log :: (downFrom k).map (fragAddr b log) := by
      intro hmem
      have hin := fragAddr_inside (by omega) hlog.le hk (b := b)
      rcases List.mem_cons.mp hmem with heq | hmem
      · have := head_outside hp hlog
        rw [heq] at hin
        omega
      · obtain ⟨j, hj, heq⟩ := List.mem_map.mp hmem
        have hplace := (fragAddr_inj (by omega) (by omega) hlog.le hlog.le (hinside j hj) hk heq).2
        have hsame := Nat.eq_of_mul_eq_mul_right (Nat.two_pow_pos log) hplace
        have := (mem_downFrom.mp hj).2
        omega
    have hx0 : fragAddr b log (k + 1) ≠ 0 := by
      have hin := (fragAddr_inside (by omega) hlog.le hk (b := b)).1
      intro heq
      rw [heq] at hin
      exact absurd hin (by decide)
    have hmem_n : ((downFrom k).map (fragAddr b log)).headD 0 ≠ 0 →
        ((downFrom k).map (fragAddr b log)).headD 0 ∈
          m.fraghead log :: (downFrom k).map (fragAddr b log) :=
      fun hne => first_listed (m.fraghead log) [] _ hne
    have hpush := pushFragment_run hp hcell_head hx rfl
      (fun heq => hfresh (heq ▸ List.mem_cons_self)) hlist.at_head
    have hcell_n := fun hne => hcells _ (hmem_n hne)
    have hsub : ∀ c ∈ m.fraghead log :: (downFrom k).map (fragAddr b log),
        c ∈ m.fraghead log :: blockCells b log := by
      intro c hc
      rcases List.mem_cons.mp hc with rfl | hc
      · exact List.mem_cons_self
      · obtain ⟨j, hj, rfl⟩ := List.mem_map.mp hc
        exact List.mem_cons_of_mem _ (mem_blockCells.mpr ⟨j, hinside j hj, rfl⟩)
    have hins := inserted_linkIn hp hcell_head hcell_n hx
    have hnew := Fragments.insert [] _ hcells hx hlist hins hfresh hx0
    have hframe := onlyCells_linkIn (m.fraghead log :: blockCells b log) hp hcell_head hcell_n hx
      List.mem_cons_self (List.mem_cons_of_mem _ hmem_x) fun hne => hsub _ (hmem_n hne)
    have hsame := hins.same
    generalize linkIn m _ _ _ = m₁ at *
    have hheads : m₁.fragheads = m.fragheads := by rw [hsame]
    have hhead : m₁.fraghead log = m.fraghead log := by rw [hsame]; rfl
    obtain ⟨m₂, hrun, hsame₂, hlist₂, hothers₂, hframe₂⟩ := ih (m := m₁)
      (by rw [hheads]; exact hp) (k + 1) (by omega) (by rw [hhead]; exact hnew)
    rw [hhead] at hlist₂ hothers₂ hframe₂
    refine ⟨m₂, ?_, ?_, ?_, ?_, hframe.trans hframe₂⟩
    · rw [linkFragments, shift_index hlog]
      exact (run_bind_some hpush).trans hrun
    · rw [hsame₂, hsame]
    · rwa [Nat.add_right_comm] at hlist₂
    · intro h l hl hout hf
      refine hothers₂ h l (by rw [hheads]; exact hl) hout ?_
      exact hf.other_inserted hl hins (hout _ List.mem_cons_self)
        (hout _ (List.mem_cons_of_mem _ hmem_x)) fun hne => hout _ (hsub _ (hmem_n hne))

theorem Takes.at {lim lim' : Int} {cs' : List Cluster} (ht : Takes k lim cs b lim' cs') :
    ∃ A B, cs' = A ++ ⟨b, k, .large⟩ :: B := by
  cases ht with
  | split A B b n hfits => exact ⟨A, _, rfl⟩
  | grow A b n hn hend hfits => exact ⟨A, [], rfl⟩
  | fresh cs hfits => exact ⟨cs, [], rfl⟩

/-- A block becomes fragments, all but the first of them free. -/
theorem linkFragments_describes (hd : Describes m s) (hlog3 : 3 ≤ log) (hlog : log < 12)
    (hs : s.clusters = A ++ ⟨b, 1, .large⟩ :: B) (ho : s.order log = []) :
    ∃ m₁, (linkFragments log (blockAddr b) (4096 >>> log - 1) 1).run { m with
        fragblocks := Function.update m.fragblocks log (m.fragblocks log + 1) } = some ((), m₁) ∧
      m₁.heapbase = m.heapbase ∧ m₁.heaplimit = m.heaplimit ∧
      Describes (m₁.setInfo b ⟨log, (4096 >>> log - 1 : Nat), (4096 >>> log - 1 : Nat)⟩)
        (s.withUse A b (.frag log) B (downFrom (4096 >>> log - 1)) log [b]) ∧
      OnlyCells (m.fraghead log :: blockCells b log) m.mem m₁.mem := by
  have hf := hd.frags
  have hr := hd.ready
  have hpow : 2 ≤ 2 ^ (12 - log) := by
    have : 2 ^ 1 ≤ 2 ^ (12 - log) := Nat.pow_le_pow_right (by omega) (by omega)
    omega
  rw [fragment_count hlog.le]
  have hblock : (⟨b, 1, .large⟩ : Cluster) ∈ s.clusters := by
    rw [hs]
    exact List.mem_append_right _ List.mem_cons_self
  have hbb : 4 ≤ b ∧ b < 1024 := by
    have hmem := hd.blocks.tiled.mem hblock
    have hlim := hr.high
    dsimp only at hmem
    omega
  have hunused : ∀ log', b ∉ fragBlocks log' s.clusters := by
    intro log' hmem
    obtain ⟨c, hc, hcuse, hstart⟩ := mem_fragBlocks.mp hmem
    have hpos := (hd.blocks.tiled.mem hc).2.1
    have heq : c = ⟨b, 1, .large⟩ := hd.blocks.tiled.unique hc hblock (by dsimp only; omega)
      (by dsimp only; omega)
    rw [heq] at hcuse
    cases hcuse
  have hempty : Fragments m (m.fraghead log) [] := by
    have := hf.lists log hlog
    rwa [nodes_eq_spread, ho] at this
  generalize hm₀ : ({ m with
    fragblocks := Function.update m.fragblocks log (m.fragblocks log + 1) } : Machine) = m₀
  have hheads : m₀.fragheads = m.fragheads := by rw [← hm₀]
  have hmem₀ : m₀.mem = m.mem := by rw [← hm₀]
  have hhead : ∀ log', m₀.fraghead log' = m.fraghead log' := fun log' => by
    rw [Machine.fraghead, hheads]
    rfl
  obtain ⟨m₁, hrun, hsame, hlist, hothers, hframe⟩ := linkFragments_run (m := m₀)
    (by rw [hheads]; exact hr.placed) hbb hlog3 hlog (2 ^ (12 - log) - 1) 0 (by omega)
    (by rw [hhead]; exact hempty.of_mem hmem₀)
  rw [hhead, hmem₀] at hframe
  rw [hhead, Nat.zero_add] at hlist
  rw [hhead, hheads] at hothers
  rw [← hm₀] at hsame
  have hinfo : m₁.heapinfo = m.heapinfo := by rw [hsame]
  generalize hcount : 2 ^ (12 - log) - 1 = count at *
  refine ⟨m₁, hrun, by rw [hsame], by rw [hsame], ?_, hframe⟩
  have hfb := hf.counts log
  rw [hs, fragBlocks_around, if_neg (by simp), List.length_append, List.length_append] at hfb
  have hself : (m₁.setInfo b ⟨log, count, count⟩).heapinfo b = ⟨log, count, count⟩ :=
    Function.update_self b _ _
  refine hd.withUse (k := m.fragblocks log + 1) hs (by simp) (by simp) ?_ ?_ ?_ ?_
    (nodup_downFrom count) ?_ (List.nodup_singleton b) ?_ ?_ ?_ ?_
  · rw [hsame]
    rfl
  · intro c hc
    exact (Function.update_of_ne hc _ _).trans (by rw [hinfo])
  · rw [hself]
    refine ⟨rfl, hlog3, hlog, rfl, ?_, ?_⟩
    · rw [length_downFrom]
    · intro f hf
      obtain ⟨count, rfl⟩ : ∃ c, count = c + 1 := ⟨count - 1, by omega⟩
      obtain rfl := Option.some_inj.mp hf
      rfl
  · exact fun log' hne => ⟨by simp, fun heq => hne (Use.frag.inj heq).symm⟩
  · intro j hj
    have := (mem_downFrom.mp hj).2
    omega
  · intro x
    by_cases hx : x = b
    · rw [if_pos hx, hx, fragBlocks_around, if_pos rfl]
      refine iff_of_true List.mem_cons_self ⟨?_, ?_⟩
      · exact List.mem_append_right _ List.mem_cons_self
      · exact fun hnil => List.not_mem_nil (hnil ▸ mem_downFrom.mpr ⟨by omega, le_refl count⟩)
    · rw [if_neg hx, other_fragBlocks (.frag log) .large hx, ← hs, ← hf.listed log x, ho]
      simp [hx]
  · rw [fragBlocks_around, if_pos rfl, hfb, List.length_append, List.length_append]
    simp only [List.length_singleton, List.length_nil]
    omega
  · intro _
    rw [nodes_withUse, spread_cons, spread_withUse List.not_mem_nil,
      show s.spread log [] = [] from rfl, List.append_nil]
    rw [show (s.withUse A b (.frag log) B (downFrom count) log [b]).group b = downFrom count by
      simp [Shape.withUse]]
    exact hlist.of_mem rfl
  · intro log' hne hlog'
    refine (hothers _ _ (list_cells hr hd.blocks hf hlog') ?_
      ((hf.lists log' hlog').of_mem hmem₀)).of_mem rfl
    intro c hc
    rcases List.mem_cons.mp hc with rfl | hc
    · exact lists_apart hr hd.blocks hf hlog hlog' (Ne.symm hne) _ List.mem_cons_self
    · obtain ⟨j, hj, rfl⟩ := mem_blockCells.mp hc
      exact fresh_not_listed hr hd.blocks hf (by omega) hlog.le hj hlog' fun hmem =>
        absurd hmem (hunused log')

end Malloc
