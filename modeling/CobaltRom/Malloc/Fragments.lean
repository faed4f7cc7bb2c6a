import CobaltRom.Malloc.Nodes

/-! Fragments are handed out and given back. -/
namespace Malloc
open DoubleLink Tiling Hoare

variable {m m' : Machine} {s s' : Shape} {b : Int} {log i : Nat} {a n x p q : UInt32}
  {g gr : List Nat} {o : List Int}

/-! ### The runs -/

section Runs

variable (hp : Placed m.fragheads) (ha : Cell m.fragheads a) (hx : Cell m.fragheads x)
include hp ha hx

theorem unlinkFragment_run (hax : x ≠ a) (hprev : m.listPrev x = a) (hnext : m.listNext x = n) :
    (unlinkFragment x).run m = some ((), linkOver m a n) := by
  have hnext' : (m.setNext a n).listNext x = n := by
    rw [listNext_setNext hp ha hx, if_neg hax, hnext]
  have hprev' : (m.setNext a n).listPrev x = a := by
    rw [listPrev_setNext hp ha hx, hprev]
  rw [unlinkFragment, run_modify_bind, hprev, hnext, run_get_bind, hnext', linkOver]
  split
  case isTrue hne =>
    change some ((), Machine.setPrev _ _ _) = _
    rw [hnext', hprev']
  case isFalse => rfl

/-- The four writes come to the same in either order of the source. -/
theorem linkAfter_run (hax : x ≠ a) (hnext : m.listNext a = n) :
    (linkAfter x a).run m = some ((), linkIn m a x n) := by
  have hnext' : (((m.setNext x n).setPrev x a).setNext a x).listNext x = n := by
    rw [listNext_setNext hp ha hx, if_neg hax, listNext_setPrev hp hx hx, listNext_setNext hp hx hx,
      if_pos rfl]
  rw [linkAfter, run_modify_bind, hnext, run_modify_bind, run_modify_bind, run_get_bind, hnext',
    linkIn]
  split
  case isTrue hne =>
    change some ((), Machine.setPrev _ _ _) = _
    rw [hnext']
  case isFalse => rfl

theorem pushFragment_run (hhead : m.fraghead log = a) (hax : x ≠ a) (hnext : m.listNext a = n) :
    (pushFragment log x).run m = some ((), linkIn m a x n) := by
  have hhead' : (m.setNext x n).fraghead log = a := hhead
  have hprev : ((m.setNext x n).setPrev x a).listPrev x = a := by
    rw [listPrev_setPrev hp hx hx, if_pos rfl]
  have hnext' : (((m.setNext x n).setPrev x a).setNext a x).listNext x = n := by
    rw [listNext_setNext hp ha hx, if_neg hax, listNext_setPrev hp hx hx, listNext_setNext hp hx hx,
      if_pos rfl]
  rw [pushFragment, run_modify_bind, hhead, hnext, run_modify_bind, hhead', run_modify_bind, hprev,
    run_get_bind, hnext', linkIn]
  split
  case isTrue hne =>
    change some ((), Machine.setPrev _ _ _) = _
    rw [hnext']
  case isFalse => rfl

end Runs

theorem countTaken_run (log : Nat) (hblock : m.block x = b) (hnext : m.listNext x = n) :
    ∃ m', (countTaken log x).run m = some ((), m') ∧ OnlyTable m m' ∧
      m'.heapindex = m.heapindex ∧
      (∀ c, c ≠ b → m'.heapinfo c = m.heapinfo c) ∧
      (m'.heapinfo b).type = (m.heapinfo b).type ∧
      (m'.heapinfo b).nfree = (m.heapinfo b).nfree - 1 ∧
      ((m.heapinfo b).nfree - 1 ≠ 0 →
        (m'.heapinfo b).first = ((n % blocksize) >>> (.ofNat log : UInt32)).toNat) := by
  rw [countTaken, run_get_bind]
  dsimp only
  rw [hblock, run_modify_bind, run_get_bind]
  have hcount : ((m.setNfree b ((m.heapinfo b).nfree - 1)).heapinfo b).nfree =
      (m.heapinfo b).nfree - 1 := by simp
  subst hnext
  rw [hcount]
  split
  case isTrue hne =>
    refine ⟨(m.setNfree b ((m.heapinfo b).nfree - 1)).setFirst b
      ((m.listNext x % blocksize) >>> (.ofNat log : UInt32)).toNat, rfl,
      (OnlyTable.refl m).setFreeNext.setFreePrev, rfl, ?_, ?_, ?_, fun _ => ?_⟩
    · intro c hc
      rw [heapinfo_setFreePrev_ne _ hc, heapinfo_setFreeNext_ne _ hc]
    · simp
    · simp
    · simp
  case isFalse hz =>
    refine ⟨_, rfl, (OnlyTable.refl m).setFreeNext, rfl, ?_, ?_, ?_, fun h => absurd h hz⟩
    · intro c hc
      rw [heapinfo_setFreeNext_ne _ hc]
    · simp
    · simp

/-! ### One block changes -/

theorem Fragments.of_mem {l : List UInt32} (hf : Fragments m a l) (h : m'.mem = m.mem) :
    Fragments m' a l := by
  have hnext : m'.listNext = m.listNext := funext fun p => by rw [Machine.listNext, h]; rfl
  have hprev : m'.listPrev = m.listPrev := funext fun p => by rw [Machine.listPrev, h]; rfl
  rw [Fragments, hnext, hprev]
  exact hf

/-- The shape with the free fragments of one block, and the blocks on the list of its size, as they
are given. -/
def Shape.withGroup (s : Shape) (b : Int) (gr : List Nat) (log : Nat) (o : List Int) : Shape :=
  { s with group := Function.update s.group b gr, order := Function.update s.order log o }

/-- After a change to the free fragments of the block `b` in its entry and its list. -/
theorem Describes.withGroup {m₁ : Machine} (hd : Describes m s)
    (hmem : m₁ = { m with mem := m₁.mem }) (htable : OnlyTable m₁ m')
    (hindex : m'.heapindex = m.heapindex) (hb : b ∈ fragBlocks log s.clusters)
    (hinfo : ∀ c, c ≠ b → m'.heapinfo c = m.heapinfo c)
    (htype : (m'.heapinfo b).type = (m.heapinfo b).type)
    (hnfree : (m'.heapinfo b).nfree = gr.length)
    (hfirst : ∀ f ∈ gr.head?, (m'.heapinfo b).first = f) (hnodup : gr.Nodup)
    (hinside : ∀ i ∈ gr, i < 2 ^ (12 - log)) (horders : o.Nodup)
    (hlisted : ∀ x, x ∈ o ↔ if x = b then gr ≠ [] else x ∈ s.order log)
    (hlist : Fragments m₁ (m.fraghead log) ((s.withGroup b gr log o).nodes log))
    (hlists : ∀ log' ≠ log, log' < 12 → Fragments m₁ (m.fraghead log') (s.nodes log')) :
    Describes m' (s.withGroup b gr log o) := by
  have hgroup : ∀ x, x ≠ b → (s.withGroup b gr log o).group x = s.group x := fun x hx => by
    simp [Shape.withGroup, hx]
  have hgroup_b : (s.withGroup b gr log o).group b = gr := by simp [Shape.withGroup]
  have horder : ∀ log' ≠ log, (s.withGroup b gr log o).order log' = s.order log' :=
    fun log' hne => by simp [Shape.withGroup, hne]
  have horder_log : (s.withGroup b gr log o).order log = o := by simp [Shape.withGroup]
  have hcore : m'.fragheads = m.fragheads ∧ m'.fragblocks = m.fragblocks := by
    rw [htable.fragheads, htable.fragblocks, hmem]
    exact ⟨rfl, rfl⟩
  refine ⟨?_, ?_, ?_, hd.apart, ?_⟩
  · have hr := hd.ready.withMem m₁.mem
    rw [← hmem] at hr
    exact hr.only htable
  · obtain ⟨⟨b', n', use⟩, hc, rfl, rfl⟩ := mem_fragBlocks.mp hb
    obtain ⟨A, B, hsplit⟩ := List.append_of_mem hc
    have hblocks := hd.blocks
    have hentry := hblocks.entries _ hc
    rw [hsplit] at hblocks
    change Blocks m'.heapinfo s.lim (s.withGroup b' gr log o).group s.clusters
    rw [hsplit]
    refine hblocks.reuse (by simp) (by simp) rfl rfl hinfo hgroup ?_
    obtain ⟨hsize, hlow, hhigh, htype', -⟩ := hentry
    refine ⟨hsize, hlow, hhigh, htype.trans htype', ?_, ?_⟩
    · rw [hgroup_b]
      exact hnfree
    · rw [hgroup_b]
      exact hfirst
  · refine hd.frags.change log b (fun _ _ => rfl) ?_ hgroup ?_ ?_ horder ?_ ?_ ?_ ?_ hcore.1 ?_ ?_
    · exact fun log' hne hb' => hne (hd.blocks.one_size hb' hb)
    · rw [hgroup_b]
      exact hnodup
    · intro x hx i hi
      by_cases hxb : x = b
      · rw [hxb, hgroup_b] at hi
        exact hinside i hi
      · rw [hgroup x hxb] at hi
        exact hd.frags.inside log x hx i hi
    · rw [horder_log]
      exact horders
    · intro x
      rw [horder_log, hlisted x]
      change _ ↔ x ∈ fragBlocks log s.clusters ∧ _
      by_cases hxb : x = b
      · rw [if_pos hxb, hxb, hgroup_b]
        exact (and_iff_right hb).symm
      · rw [if_neg hxb, hgroup x hxb]
        exact hd.frags.listed log x
    · rw [hcore.2]
      exact hd.frags.counts log
    · exact fun log' _ => congrFun hcore.2 log'
    · exact fun _ => hlist.of_mem htable.mem
    · exact fun log' hne hlt => (hlists log' hne hlt).of_mem htable.mem
  · rw [hindex]
    exact hd.index

/-- The free fragments of some blocks, block by block. -/
def Shape.spread (s : Shape) (log : Nat) (o : List Int) : List UInt32 :=
  o.flatMap fun b => (s.group b).map (fragAddr b log)

theorem spread_cons (s : Shape) (log : Nat) (b : Int) (o : List Int) :
    s.spread log (b :: o) = (s.group b).map (fragAddr b log) ++ s.spread log o := rfl

theorem spread_append (s : Shape) (log : Nat) (o o' : List Int) :
    s.spread log (o ++ o') = s.spread log o ++ s.spread log o' := List.flatMap_append

theorem nodes_eq_spread (s : Shape) (log : Nat) : s.nodes log = s.spread log (s.order log) := rfl

theorem group_withGroup : (s.withGroup b gr log o).group b = gr := by simp [Shape.withGroup]

theorem nodes_withGroup : (s.withGroup b gr log o).nodes log =
    (s.withGroup b gr log o).spread log o := by simp [Shape.withGroup, nodes_eq_spread]

theorem spread_congr (h : ∀ x ∈ o, s'.group x = s.group x) :
    s'.spread log o = s.spread log o :=
  List.flatMap_congr fun x hx => by rw [h x hx]

/-- Other blocks are not affected. -/
theorem spread_other {o' : List Int} (hb : b ∉ o) :
    (s.withGroup b gr log o').spread log o = s.spread log o := by
  refine spread_congr fun x hx => ?_
  have hne : x ≠ b := fun he => hb (he ▸ hx)
  rw [Shape.withGroup]
  dsimp only
  rw [Function.update_of_ne hne]

/-! ### Handing out the first of a list -/

/-- The blocks on a list once a fragment of its first block is gone. -/
def orderAfterPop (b : Int) (gr : List Nat) (o : List Int) : List Int :=
  if gr = [] then o else b :: o

theorem nodes_pop (hnodup : (b :: o).Nodup) :
    (s.withGroup b gr log (orderAfterPop b gr o)).nodes log =
      gr.map (fragAddr b log) ++ s.spread log o := by
  have hnotin := (List.nodup_cons.mp hnodup).1
  rw [nodes_withGroup, orderAfterPop]
  split
  case isTrue hempty =>
    rw [spread_other hnotin, hempty]
    rfl
  case isFalse => rw [spread_cons, spread_other hnotin, group_withGroup]

theorem popFragment_describes (hd : Describes m s) (hlog : log < 12) (ho : s.order log = b :: o)
    (hg : s.group b = i :: gr) :
    ∃ m', (popFragment log (fragAddr b log i)).run m = some (fragAddr b log i, m') ∧
      Describes m' (s.withGroup b gr log (orderAfterPop b gr o)) ∧ m'.heaplimit = m.heaplimit ∧
      OnlyCells (m.fraghead log :: s.nodes log) m.mem m'.mem := by
  have hr := hd.ready
  have hf := hd.frags
  have hb : b ∈ fragBlocks log s.clusters :=
    ((hf.listed log b).mp (by rw [ho]; exact List.mem_cons_self)).1
  obtain ⟨hlow, hhigh, -, -, htype, hnfree, hfirst⟩ := hd.blocks.frag_block hb
  have hlim := hr.high
  have hi : i < 2 ^ (12 - log) := hf.inside log b hb i (by rw [hg]; exact List.mem_cons_self)
  have hnodup := hf.orders log
  rw [ho] at hnodup
  have hnodes : s.nodes log = [] ++ ([fragAddr b log i] ++
      (gr.map (fragAddr b log) ++ s.spread log o)) := by
    rw [nodes_eq_spread, ho, spread_cons, hg]
    rfl
  generalize hrest : gr.map (fragAddr b log) ++ s.spread log o = rest at hnodes
  have hlist : Threaded m.listNext m.listPrev (· ≠ 0) (m.fraghead log) 0
      ([] ++ fragAddr b log i :: rest) := by
    have := hf.lists log hlog
    rwa [hnodes] at this
  have hxa : fragAddr b log i ≠ m.fraghead log := fun heq =>
    (List.nodup_cons.mp hlist.sources).1 (by rw [heq]; exact List.mem_cons_self)
  have hcells := list_cells hr hd.blocks hf hlog
  have hcell_x : Cell m.fragheads (fragAddr b log i) :=
    hcells _ (List.mem_cons_of_mem _ (by rw [hnodes]; exact List.mem_cons_self))
  have hx0 : fragAddr b log i ≠ 0 := by
    have hin := (fragAddr_inside (by omega) hlog.le hi (b := b)).1
    intro heq
    rw [heq] at hin
    exact absurd hin (by decide)
  have hat := hlist.at_cell
  have hunlink := unlinkFragment_run hr.placed (hcells _ List.mem_cons_self) hcell_x hxa (hat.2 hx0)
    hat.1
  obtain ⟨hdropped, hnew, hothers, hframe⟩ := linkOver_lists hr hd.blocks hf hlog hnodes
  change Dropped m (linkOver m (m.fraghead log) (rest.headD 0)) _ _ at hdropped
  rw [show ([] : List UInt32).getLastD (m.fraghead log) = m.fraghead log from rfl] at *
  generalize linkOver m (m.fraghead log) (rest.headD 0) = m₁ at *
  have hsame := hdropped.same
  have hbase : m₁.heapbase = ramHeapSpace := by
    rw [hsame]
    exact hr.heapbase
  have hinfo : m₁.heapinfo = m.heapinfo := by rw [hsame]
  have hnext : m₁.listNext (fragAddr b log i) = rest.headD 0 := by
    rw [hdropped.next _ hcell_x, if_neg hxa, hat.1]
  obtain ⟨m', hcount, htable, hindex, hother, htype', hnfree', hfirst'⟩ := countTaken_run log
    (block_fragAddr hbase (by omega) hlog.le hi (b := b)) hnext
  rw [hinfo] at hother htype' hnfree' hfirst'
  rw [hnfree, hg, List.length_cons] at hnfree' hfirst'
  have hlength : ((gr.length + 1 : Nat) : Int) - 1 = gr.length := by omega
  rw [hlength] at hnfree' hfirst'
  refine ⟨m', ?_, ?_, ?_, ?_⟩
  · rw [popFragment, run_bind_some hunlink, run_bind_some hcount]
    rfl
  · have hgr := hf.groups b
    rw [hg] at hgr
    refine hd.withGroup hsame htable (by rw [hindex, hsame]) hb hother htype' hnfree' ?_
      (List.nodup_cons.mp hgr).2 ?_ ?_ ?_ ?_ hothers
    · intro j hj
      obtain ⟨gr', rfl⟩ := List.head?_eq_some_iff.mp hj
      have hfirst_rest : rest.headD 0 = fragAddr b log j := by rw [← hrest]; rfl
      have hj' : j < 2 ^ (12 - log) := hf.inside log b hb j (by
        rw [hg]
        exact List.mem_cons_of_mem _ List.mem_cons_self)
      rw [hfirst' (by rw [List.length_cons]; omega), hfirst_rest,
        index_fragAddr (by omega) hlog hj']
    · exact fun j hj => hf.inside log b hb j (by rw [hg]; exact List.mem_cons_of_mem _ hj)
    · rw [orderAfterPop]
      split
      · exact (List.nodup_cons.mp hnodup).2
      · exact hnodup
    · intro x
      rw [orderAfterPop, ho]
      split
      case isTrue hempty =>
        by_cases hx : x = b
        · rw [if_pos hx, hx]
          exact iff_of_false (List.nodup_cons.mp hnodup).1 (not_not.mpr hempty)
        · rw [if_neg hx, List.mem_cons]
          exact (or_iff_right hx).symm
      case isFalse hne =>
        by_cases hx : x = b
        · rw [if_pos hx, hx]
          exact iff_of_true List.mem_cons_self hne
        · rw [if_neg hx]
    · rw [nodes_pop hnodup, hrest]
      exact hnew
  · rw [htable.heaplimit, hsame]
  · rw [htable.mem]
    exact hframe

/-! ### Giving back a fragment -/

section GiveBack

variable (hd : Describes m s) (hlog : log < 12) (hb : b ∈ fragBlocks log s.clusters)
  (hi : i < 2 ^ (12 - log)) (hfresh : i ∉ s.group b)
include hd hlog hb hi hfresh

/-- A fragment in use is on no list. -/
theorem used_not_listed (log' : Nat) (hlog' : log' < 12) :
    fragAddr b log i ∉ m.fraghead log' :: s.nodes log' := by
  obtain ⟨hlow, hhigh, -⟩ := hd.blocks.frag_block hb
  have hlim := hd.ready.high
  refine fresh_not_listed hd.ready hd.blocks hd.frags (by omega) hlog.le hi hlog'
    fun hb' j hj heq => ?_
  have hsame := hd.blocks.one_size hb hb'
  subst hsame
  exact hfresh (Nat.eq_of_mul_eq_mul_right (Nat.two_pow_pos log) heq ▸ hj)

omit hfresh in
theorem used_cell : Cell m.fragheads (fragAddr b log i) ∧ fragAddr b log i ≠ 0 := by
  obtain ⟨hlow, hhigh, hlog3, -⟩ := hd.blocks.frag_block hb
  have hlim := hd.ready.high
  refine ⟨cell_fragAddr ⟨by omega, by omega⟩ hlog3 hlog hi _, fun heq => ?_⟩
  have hin := (fragAddr_inside (by omega) hlog.le hi (b := b)).1
  rw [heq] at hin
  exact absurd hin (by decide)

/-- The block has a free fragment: the new one goes behind the first. -/
theorem linkAfter_describes {j : Nat} (hg : s.group b = j :: gr) :
    ∃ m', (do
        linkAfter (fragAddr b log i) (fragAddr b log j)
        modify fun m => m.setNfree b ((m.heapinfo b).nfree + 1) : HeapM Unit).run m =
        some ((), m') ∧
      Describes m' (s.withGroup b (j :: i :: gr) log (s.order log)) ∧
      m'.heaplimit = m.heaplimit ∧
      OnlyCells (fragAddr b log i :: m.fraghead log :: s.nodes log) m.mem m'.mem := by
  have hf := hd.frags
  obtain ⟨hcell_x, hx0⟩ := used_cell hd hlog hb hi
  have hnot := used_not_listed hd hlog hb hi hfresh
  obtain ⟨-, -, -, -, -, hnfree, hfirst⟩ := hd.blocks.frag_block hb
  have hbo : b ∈ s.order log := (hf.listed log b).mpr ⟨hb, by rw [hg]; exact List.cons_ne_nil j gr⟩
  obtain ⟨o₁, o₂, ho⟩ := List.append_of_mem hbo
  have hnodup := hf.orders log
  rw [ho] at hnodup
  have hnodes : s.nodes log = (s.spread log o₁ ++ [fragAddr b log j]) ++
      (gr.map (fragAddr b log) ++ s.spread log o₂) := by
    rw [nodes_eq_spread, ho, spread_append, spread_cons, hg, List.map_cons, List.append_assoc]
    rfl
  obtain ⟨hins, hnew, hothers, hframe⟩ :=
    linkIn_lists hd.ready hd.blocks hf hlog hnodes hcell_x hx0 hnot
  rw [List.getLastD_concat] at hins hnew hothers hframe
  have hcells := list_cells hd.ready hd.blocks hf hlog
  have hmem_a : fragAddr b log j ∈ m.fraghead log :: s.nodes log := by
    rw [hnodes]
    simp
  have hxa : fragAddr b log i ≠ fragAddr b log j := fun heq => hnot log hlog (heq ▸ hmem_a)
  have hnext : m.listNext (fragAddr b log j) =
      (gr.map (fragAddr b log) ++ s.spread log o₂).headD 0 := by
    refine Threaded.next_at (hf.lists log hlog) (p := m.fraghead log :: s.spread log o₁) ?_
    rw [hnodes, List.append_assoc]
    rfl
  have hlink := linkAfter_run hd.ready.placed (hcells _ hmem_a) hcell_x hxa hnext
  generalize linkIn m (fragAddr b log j) (fragAddr b log i) _ = m₁ at *
  have hsame := hins.same
  have hinfo : m₁.heapinfo = m.heapinfo := by rw [hsame]
  refine ⟨m₁.setNfree b ((m.heapinfo b).nfree + 1), ?_, ?_, ?_, hframe⟩
  · rw [run_bind_some hlink, ← hinfo]
    rfl
  · have hgr := hf.groups b
    rw [hg] at hgr
    refine hd.withGroup hsame (OnlyTable.refl _).setFreeNext ?_ hb ?_ ?_ ?_ ?_ ?_ ?_
      (hf.orders log) ?_ ?_ hothers
    · rw [heapindex_setFreeNext, hsame]
    · intro c hc
      rw [heapinfo_setFreeNext_ne _ hc, hinfo]
    · dsimp only [Info.type]
      rw [size_setFreeNext, hinfo]
    · dsimp only [Info.nfree] at hnfree ⊢
      rw [next_setFreeNext, if_pos rfl, hnfree, hg]
      rfl
    · intro f hf'
      obtain rfl := Option.some_inj.mp hf'
      dsimp only [Info.first]
      rw [prev_setFreeNext, hinfo]
      exact hfirst j (by rw [hg]; rfl)
    · rw [hg] at hfresh
      rw [List.nodup_cons, List.nodup_cons]
      obtain ⟨hjgr, hgr⟩ := List.nodup_cons.mp hgr
      obtain ⟨hij, higr⟩ := not_or.mp fun hor => hfresh (List.mem_cons.mpr hor)
      exact ⟨fun he => (List.mem_cons.mp he).elim (Ne.symm hij) hjgr, higr, hgr⟩
    · have hold : ∀ k ∈ j :: gr, k < 2 ^ (12 - log) := fun k hk => hf.inside log b hb k (hg ▸ hk)
      intro k hk
      rcases List.mem_cons.mp hk with rfl | hk
      · exact hold k List.mem_cons_self
      · rcases List.mem_cons.mp hk with rfl | hk
        · exact hi
        · exact hold k (List.mem_cons_of_mem _ hk)
    · intro y
      by_cases hy : y = b
      · rw [if_pos hy, hy]
        exact iff_of_true hbo (List.cons_ne_nil _ _)
      · rw [if_neg hy]
    · have hb₁ : b ∉ o₁ := fun he => List.disjoint_of_nodup_append hnodup he List.mem_cons_self
      have hb₂ : b ∉ o₂ := (List.nodup_cons.mp hnodup.of_append_right).1
      rw [nodes_withGroup, ho, spread_append, spread_cons, spread_other hb₁, spread_other hb₂,
        group_withGroup]
      simpa using hnew
  · change m₁.heaplimit = _
    rw [hsame]

omit hd hlog hb hi hfresh in
theorem linkIn_only {m₁ : Machine} (h : OnlyTable m m₁) :
    OnlyTable (linkIn m a x n) (linkIn m₁ a x n) ∧ (linkIn m₁ a x n).heapinfo = m₁.heapinfo ∧
      (linkIn m₁ a x n).heapindex = m₁.heapindex := by
  rw [h]
  unfold linkIn
  split <;> exact ⟨rfl, rfl, rfl⟩

/-- The block has no free fragment: it comes to the front of the list. -/
theorem pushFragment_describes (hg : s.group b = []) :
    ∃ m', (do
        modify fun m => m.setNfree b 1
        modify fun m => m.setFirst b
          ((fragAddr b log i % blocksize) >>> (.ofNat log : UInt32)).toNat
        pushFragment log (fragAddr b log i) : HeapM Unit).run m = some ((), m') ∧
      Describes m' (s.withGroup b [i] log (b :: s.order log)) ∧ m'.heaplimit = m.heaplimit ∧
      OnlyCells (fragAddr b log i :: m.fraghead log :: s.nodes log) m.mem m'.mem := by
  have hf := hd.frags
  have hr := hd.ready
  obtain ⟨hcell_x, hx0⟩ := used_cell hd hlog hb hi
  have hnot := used_not_listed hd hlog hb hi hfresh
  obtain ⟨hlow, hhigh, -⟩ := hd.blocks.frag_block hb
  have hlim := hr.high
  have hbo : b ∉ s.order log := fun hmem => ((hf.listed log b).mp hmem).2 hg
  have hnodes : s.nodes log = [] ++ s.nodes log := rfl
  obtain ⟨hins, hnew, hothers, hframe⟩ := linkIn_lists hr hd.blocks hf hlog hnodes hcell_x hx0 hnot
  rw [show ([] : List UInt32).getLastD (m.fraghead log) = m.fraghead log from rfl] at *
  have hxa : fragAddr b log i ≠ m.fraghead log := fun heq =>
    hnot log hlog (heq ▸ List.mem_cons_self)
  have hnext : m.listNext (m.fraghead log) = (s.nodes log).headD 0 := (hf.lists log hlog).at_head
  have hindex := index_fragAddr ⟨by omega, by omega⟩ hlog hi (b := b)
  rw [hindex]
  have htable : OnlyTable m ((m.setNfree b 1).setFirst b i) :=
    (OnlyTable.refl m).setFreeNext.setFreePrev
  have hpush := pushFragment_run (m := (m.setNfree b 1).setFirst b i) hr.placed
    (list_cells hr hd.blocks hf hlog _ List.mem_cons_self) hcell_x rfl hxa hnext
  obtain ⟨honly, hinfo, hheapindex⟩ := linkIn_only (a := m.fraghead log) (x := fragAddr b log i)
    (n := (s.nodes log).headD 0) htable
  generalize linkIn ((m.setNfree b 1).setFirst b i) _ _ _ = m₂ at *
  generalize linkIn m (m.fraghead log) (fragAddr b log i) _ = m₁ at *
  have hsame := hins.same
  refine ⟨m₂, ?_, ?_, ?_, ?_⟩
  · rw [run_modify_bind, run_modify_bind]
    exact hpush
  · refine hd.withGroup hsame honly hheapindex hb ?_ ?_ ?_ ?_ (List.nodup_singleton i) ?_
      ?_ ?_ ?_ hothers
    · intro c hc
      rw [hinfo, heapinfo_setFreePrev_ne _ hc, heapinfo_setFreeNext_ne _ hc]
    · rw [hinfo]
      simp
    · rw [hinfo]
      simp
    · intro f hf'
      obtain rfl := Option.some_inj.mp hf'
      rw [hinfo]
      simp
    · intro k hk
      obtain rfl := List.mem_singleton.mp hk
      exact hi
    · exact List.nodup_cons.mpr ⟨hbo, hf.orders log⟩
    · intro y
      by_cases hy : y = b
      · rw [if_pos hy, hy]
        exact iff_of_true List.mem_cons_self (List.cons_ne_nil _ _)
      · rw [if_neg hy, List.mem_cons]
        exact or_iff_right hy
    · rw [nodes_withGroup, spread_cons, spread_other hbo, group_withGroup]
      exact hnew
  · rw [honly.heaplimit, hsame]
  · rw [honly.mem]
    exact hframe

end GiveBack

end Malloc
