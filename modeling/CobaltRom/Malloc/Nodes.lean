import CobaltRom.Malloc.Blocks
import CobaltRom.Malloc.Cells
import CobaltRom.Malloc.Morecore

/-! The free fragments of the heap: where they lie, and what a change to one block of them leaves of
the lists. -/
namespace Malloc
open DoubleLink Tiling

variable {m m' : Machine} {s s' : Shape} {lim b b' : Int} {log log' i j : Nat} {p : UInt32}
  {info info' : Int → Info} {g g' : Int → List Nat} {A B cs : List Cluster} {c c' : Cluster}

/-! ### Blocks of fragments -/

theorem Blocks.frag_block (h : Blocks info lim g cs) (hb : b ∈ fragBlocks log cs) :
    4 ≤ b ∧ b < lim ∧ 3 ≤ log ∧ log < 12 ∧ (info b).type = log ∧
      (info b).nfree = (g b).length ∧ ∀ f ∈ (g b).head?, (info b).first = f := by
  obtain ⟨⟨b, n, use⟩, hc, rfl, rfl⟩ := mem_fragBlocks.mp hb
  obtain ⟨hbegin, hpos, hend⟩ : 4 ≤ b ∧ 0 < n ∧ b + n ≤ lim := h.tiled.mem hc
  obtain ⟨-, hlow, hhigh, htype, hnfree, hfirst⟩ := h.entries _ hc
  refine ⟨hbegin, ?_, hlow, hhigh, htype, hnfree, hfirst⟩
  change b < lim
  omega

/-- A block is broken into fragments of one size. -/
theorem Blocks.one_size (h : Blocks info lim g cs) (hb : b ∈ fragBlocks log cs)
    (hb' : b ∈ fragBlocks log' cs) : log = log' := by
  obtain ⟨⟨b, n, use⟩, hc, rfl, rfl⟩ := mem_fragBlocks.mp hb
  obtain ⟨⟨b', n', use⟩, hc', rfl, hstart⟩ := mem_fragBlocks.mp hb'
  dsimp only at hstart
  subst hstart
  have hpos := (h.tiled.mem hc).2.1
  have hpos' := (h.tiled.mem hc').2.1
  dsimp only at hpos hpos'
  have heq := h.tiled.unique hc hc' (by dsimp only; omega) (by dsimp only; omega)
  cases heq
  rfl

/-- A cluster that is not free is given another use. -/
theorem Blocks.reuse (h : Blocks info lim g (A ++ c :: B)) (hc : c.use ≠ .free)
    (hc' : c'.use ≠ .free) (hstart : c'.start = c.start) (hsize : c'.size = c.size)
    (hinfo : ∀ x, x ≠ c.start → info' x = info x) (hg : ∀ x, x ≠ c.start → g' x = g x)
    (hentry : Entry (info' c.start) (g' c.start) c') : Blocks info' lim g' (A ++ c' :: B) := by
  obtain ⟨hA, hpos, hB⟩ := h.tiled.around
  have hout : ∀ x, ¬ (c.start ≤ x ∧ x < c.start + c.size) → x ≠ c.start := by omega
  have hne : ∀ x ∈ 0 :: (frees A ++ frees B), x ≠ c.start := by
    intro x hx
    have hlow := hA.le
    rcases List.mem_cons.mp hx with rfl | hx
    · omega
    · rcases List.mem_append.mp hx with hx | hx
      · exact (frees_bounds hA hx).2.ne
      · have := (frees_bounds hB hx).1
        omega
  have hfrees : frees [c'] = [] := frees_cons_busy hc' []
  refine Blocks.splice A [c] [c'] B c.start (c.start + c.size) h hA ⟨hstart, by omega, ?_⟩ hB
    ⟨?_, ?_, ?_⟩ ?_ ?_ ?_
  · change c.start + c'.size = _
    rw [hsize]
  · exact fun x hx => by rw [hinfo x (hout x hx)]
  · exact fun x hx _ => by rw [hinfo x (hout x hx)]
  · exact fun x hx _ => by rw [hinfo x (hout x hx)]
  · intro d hd
    refine hg _ fun heq => ?_
    rcases List.mem_append.mp hd with hd | hd
    · have := h.tiled.before hd
      have := (hA.mem hd).2.1
      omega
    · have := h.tiled.behind hd
      omega
  · intro d hd
    obtain rfl := List.mem_singleton.mp hd
    rw [hstart]
    exact hentry
  · have hmid := Blocks.middle A [c] B h
    rw [frees_cons_busy hc [], frees_nil] at hmid
    rw [hfrees]
    have hlast : (frees A).getLastD 0 ∈ 0 :: (frees A ++ frees B) := by
      rcases List.mem_cons.mp (last_mem A) with h0 | hmem
      · rw [h0]
        exact List.mem_cons_self
      · exact List.mem_cons_of_mem _ (List.mem_append_left _ hmem)
    have hfirst : (frees B).headD 0 ∈ 0 :: (frees A ++ frees B) := by
      rcases first_mem B with h0 | hmem
      · rw [h0]
        exact List.mem_cons_self
      · exact List.mem_cons_of_mem _ (List.mem_append_right _ hmem)
    refine hmid.congr (fun x hx => ?_) (fun x hx _ => ?_)
    · obtain rfl := List.mem_singleton.mp hx
      rw [hinfo _ (hne _ hlast)]
    · obtain rfl := List.mem_singleton.mp hx
      rw [hinfo _ (hne _ hfirst)]

/-! ### Places of fragments -/

theorem mem_nodes : p ∈ s.nodes log ↔ ∃ b ∈ s.order log, ∃ i ∈ s.group b, fragAddr b log i = p := by
  simp [Shape.nodes]

theorem fragAddr_inj (hb : 1 ≤ b ∧ b ≤ 1024) (hb' : 1 ≤ b' ∧ b' ≤ 1024) (hlog : log ≤ 12)
    (hlog' : log' ≤ 12) (hi : i < 2 ^ (12 - log)) (hj : j < 2 ^ (12 - log'))
    (h : fragAddr b log i = fragAddr b' log' j) : b = b' ∧ i * 2 ^ log = j * 2 ^ log' := by
  have hnat := toNat_fragAddr hb.1 hb.2 hlog hi
  have hnat' := toNat_fragAddr hb'.1 hb'.2 hlog' hj
  have hlt := frag_lt hlog hi
  have hlt' := frag_lt hlog' hj
  have hpos := Nat.two_pow_pos log
  have hpos' := Nat.two_pow_pos log'
  rw [h] at hnat
  generalize i * 2 ^ log = u at *
  generalize j * 2 ^ log' = v at *
  omega

theorem block_fragAddr (hbase : m.heapbase = ramHeapSpace) (hb : 1 ≤ b ∧ b ≤ 1024) (hlog : log ≤ 12)
    (hi : i < 2 ^ (12 - log)) : m.block (fragAddr b log i) = b := by
  have hnat := toNat_fragAddr hb.1 hb.2 hlog hi
  have hlt := frag_lt hlog hi
  have hpos := Nat.two_pow_pos log
  have hlow : ramHeapSpace.toNat ≤ (fragAddr b log i).toNat := by
    change 0x01b00000 ≤ _
    omega
  have hhigh : (fragAddr b log i).toNat ≤ ramHeapSpaceMax.toNat := by
    change _ ≤ 0x01f00000
    omega
  rw [block_eq hbase hlow hhigh]
  omega

/-- The number of a fragment in its block, as the code computes it. -/
theorem index_fragAddr (hb : 1 ≤ b ∧ b ≤ 1024) (hlog : log < 12) (hi : i < 2 ^ (12 - log)) :
    ((fragAddr b log i % blocksize) >>> (.ofNat log : UInt32)).toNat = i := by
  have hnat := toNat_fragAddr hb.1 hb.2 hlog.le hi
  have hlt := frag_lt hlog.le hi
  have hpos := Nat.two_pow_pos log
  have hmod : (fragAddr b log i).toNat % 4096 = i * 2 ^ log := by omega
  rw [UInt32.toNat_shiftRight, UInt32.toNat_mod, UInt32.toNat_ofNat']
  change ((fragAddr b log i).toNat % 4096) >>> (log % 2 ^ 32 % 32) = i
  rw [hmod, Nat.mod_eq_of_lt (by omega : log < 2 ^ 32), Nat.mod_eq_of_lt (by omega : log < 32),
    Nat.shiftRight_eq_div_pow, Nat.mul_div_cancel _ hpos]

/-! ### The lists -/

section Heap

variable (hr : Ready m s.lim) (hb : Blocks m.heapinfo s.lim s.group s.clusters) (hf : Frags m s)
include hr hb hf

/-- Where a free fragment on a list comes from. -/
theorem node_place (hp : p ∈ s.nodes log) : ∃ b i, b ∈ fragBlocks log s.clusters ∧ i ∈ s.group b ∧
    (1 ≤ b ∧ b ≤ 1024) ∧ 3 ≤ log ∧ log < 12 ∧ i < 2 ^ (12 - log) ∧ fragAddr b log i = p := by
  obtain ⟨b, hbo, i, hi, hplace⟩ := mem_nodes.mp hp
  have hfb := ((hf.listed log b).mp hbo).1
  obtain ⟨hlow, hhigh, hlog3, hlog, -⟩ := hb.frag_block hfb
  have hlim := hr.high
  exact ⟨b, i, hfb, hi, ⟨by omega, by omega⟩, hlog3, hlog, hf.inside log b hfb i hi, hplace⟩

omit hr hb hf in
theorem cell_fragAddr (hb : 4 ≤ b ∧ b < 1024) (hlog3 : 3 ≤ log) (hlog : log < 12)
    (hi : i < 2 ^ (12 - log)) (fragheads : UInt32) : Cell fragheads (fragAddr b log i) := by
  have hnat := toNat_fragAddr (by omega) (by omega) hlog.le hi (b := b)
  have hlt := frag_lt hlog.le hi
  have hpow : 2 ^ log = 8 * 2 ^ (log - 3) := by
    rw [show 8 = 2 ^ 3 from rfl, ← Nat.pow_add, Nat.add_sub_cancel' hlog3]
  have hpos := Nat.two_pow_pos (log - 3)
  have hmul : i * 2 ^ log = 8 * (i * 2 ^ (log - 3)) := by
    rw [hpow]
    ring
  refine Or.inr ⟨?_, ?_, ?_⟩ <;> omega

theorem node_cell (hp : p ∈ s.nodes log) : Cell m.fragheads p := by
  obtain ⟨b, hbo, i, hi, rfl⟩ := mem_nodes.mp hp
  have hfb := ((hf.listed log b).mp hbo).1
  obtain ⟨hlow, hhigh, hlog3, hlog, -⟩ := hb.frag_block hfb
  have hlim := hr.high
  exact cell_fragAddr ⟨by omega, by omega⟩ hlog3 hlog (hf.inside log b hfb i hi) _

theorem list_cells (hlog : log < 12) : ∀ c ∈ m.fraghead log :: s.nodes log, Cell m.fragheads c := by
  intro c hc
  rcases List.mem_cons.mp hc with rfl | hc
  · exact Or.inl ⟨log, hlog, rfl⟩
  · exact node_cell hr hb hf hc

omit hr hb hf in
theorem head_outside (hp : Placed m.fragheads) (hlog : log < 12) :
    (m.fraghead log).toNat + 8 ≤ 0x01b00000 ∨ 0x01f00000 ≤ (m.fraghead log).toNat := by
  have hout : m.fragheads.toNat + 96 ≤ 0x01b00000 ∨
      0x01f00000 ≤ m.fragheads.toNat ∧ m.fragheads.toNat + 96 ≤ 2 ^ 32 := hp.outside
  rw [Machine.fraghead, toNat_head hp hlog]
  omega

omit hr hb hf in
theorem fragAddr_inside (hb : 1 ≤ b ∧ b ≤ 1024) (hlog : log ≤ 12) (hi : i < 2 ^ (12 - log)) :
    0x01b00000 ≤ (fragAddr b log i).toNat ∧ (fragAddr b log i).toNat < 0x01f00000 := by
  have hnat := toNat_fragAddr hb.1 hb.2 hlog hi
  have hlt := frag_lt hlog hi
  have hpos := Nat.two_pow_pos log
  omega

/-- A fragment that is not free is on no list. -/
theorem fresh_not_listed (hbb : 1 ≤ b ∧ b ≤ 1024) (hlog : log ≤ 12) (hi : i < 2 ^ (12 - log))
    (hlog' : log' < 12) (hfresh : b ∈ fragBlocks log' s.clusters → ∀ j ∈ s.group b,
      i * 2 ^ log ≠ j * 2 ^ log') : fragAddr b log i ∉ m.fraghead log' :: s.nodes log' := by
  have hin := fragAddr_inside hbb hlog hi
  intro hmem
  rcases List.mem_cons.mp hmem with heq | hmem
  · have := head_outside hr.placed hlog'
    rw [heq] at hin
    omega
  · obtain ⟨b', j, hfb, hj, hb', -, hlt, hj', heq⟩ := node_place hr hb hf hmem
    obtain ⟨rfl, hplace⟩ := fragAddr_inj hb' hbb hlt.le hlog hj' hi heq
    exact hfresh hfb j hj hplace.symm

/-- Two lists have no cell in common. -/
theorem lists_apart (hlog : log < 12) (hlog' : log' < 12) (hne : log ≠ log') :
    ∀ c ∈ m.fraghead log :: s.nodes log, c ∉ m.fraghead log' :: s.nodes log' := by
  intro c hc
  rcases List.mem_cons.mp hc with rfl | hc
  · intro hmem
    rcases List.mem_cons.mp hmem with heq | hmem
    · have hnat := congrArg UInt32.toNat heq
      rw [Machine.fraghead, Machine.fraghead, toNat_head hr.placed hlog,
        toNat_head hr.placed hlog'] at hnat
      omega
    · obtain ⟨b, j, -, -, hbb, -, hlt, hj, heq⟩ := node_place hr hb hf hmem
      have hin := fragAddr_inside hbb hlt.le hj
      have hout := head_outside hr.placed hlog
      rw [heq] at hin
      omega
  · obtain ⟨b, j, hfb, hj, hbb, -, hlt, hj', rfl⟩ := node_place hr hb hf hc
    exact fresh_not_listed hr hb hf hbb hlt.le hj' hlog' fun hfb' =>
      absurd (hb.one_size hfb hfb') hne

/-! ### Cells in and out -/

omit hr hb hf in
theorem last_listed (h : UInt32) (l₁ l₂ : List UInt32) : l₁.getLastD h ∈ h :: (l₁ ++ l₂) := by
  obtain ⟨q, hq⟩ := exists_last h l₁
  rw [← List.cons_append, hq]
  exact List.mem_append_left _ (List.mem_append_right _ List.mem_cons_self)

omit hr hb hf in
theorem first_listed (h : UInt32) (l₁ l₂ : List UInt32) (hne : l₂.headD 0 ≠ 0) :
    l₂.headD 0 ∈ h :: (l₁ ++ l₂) :=
  List.mem_cons_of_mem _ (List.mem_append_right _
    ((List.mem_append.mp (headD_mem l₂ 0)).resolve_right fun h0 => hne (List.mem_singleton.mp h0)))

/-- A fragment is linked into the list of its size; the other lists stay. -/
theorem linkIn_lists (hlog : log < 12) {l₁ l₂ : List UInt32} (hl : s.nodes log = l₁ ++ l₂)
    (hcell : Cell m.fragheads p) (hp0 : p ≠ 0)
    (hnot : ∀ log' < 12, p ∉ m.fraghead log' :: s.nodes log') :
    Inserted m (linkIn m (l₁.getLastD (m.fraghead log)) p (l₂.headD 0))
        (l₁.getLastD (m.fraghead log)) p (l₂.headD 0) ∧
      Fragments (linkIn m (l₁.getLastD (m.fraghead log)) p (l₂.headD 0)) (m.fraghead log)
        (l₁ ++ p :: l₂) ∧
      (∀ log' ≠ log, log' < 12 →
        Fragments (linkIn m (l₁.getLastD (m.fraghead log)) p (l₂.headD 0)) (m.fraghead log')
          (s.nodes log')) ∧
      OnlyCells (p :: m.fraghead log :: s.nodes log) m.mem
        (linkIn m (l₁.getLastD (m.fraghead log)) p (l₂.headD 0)).mem := by
  have hcells := list_cells hr hb hf hlog
  have hlist := hf.lists log hlog
  have hlast := last_listed (m.fraghead log) l₁ l₂
  have hfirst := first_listed (m.fraghead log) l₁ l₂
  rw [← hl] at hlast hfirst
  have hcell_n := fun hne => hcells _ (hfirst hne)
  have hins := inserted_linkIn hr.placed (hcells _ hlast) hcell_n hcell
  refine ⟨hins, ?_, fun log' hne hlog' => ?_, ?_⟩
  · have hnot' := hnot log hlog
    rw [hl] at hcells hlist hnot'
    exact Fragments.insert l₁ l₂ hcells hcell hlist hins hnot' hp0
  · have hapart := lists_apart hr hb hf hlog hlog' (Ne.symm hne)
    exact (hf.lists log' hlog').other_inserted (list_cells hr hb hf hlog') hins (hapart _ hlast)
      (hnot log' hlog') fun hn => hapart _ (hfirst hn)
  · exact onlyCells_linkIn _ hr.placed (hcells _ hlast) hcell_n hcell (List.mem_cons_of_mem _ hlast)
      List.mem_cons_self fun hn => List.mem_cons_of_mem _ (hfirst hn)

/-- Fragments are taken out of the list of their size; the other lists stay. -/
theorem linkOver_lists (hlog : log < 12) {l₁ mid l₂ : List UInt32}
    (hl : s.nodes log = l₁ ++ (mid ++ l₂)) :
    Dropped m (linkOver m (l₁.getLastD (m.fraghead log)) (l₂.headD 0))
        (l₁.getLastD (m.fraghead log)) (l₂.headD 0) ∧
      Fragments (linkOver m (l₁.getLastD (m.fraghead log)) (l₂.headD 0)) (m.fraghead log)
        (l₁ ++ l₂) ∧
      (∀ log' ≠ log, log' < 12 →
        Fragments (linkOver m (l₁.getLastD (m.fraghead log)) (l₂.headD 0)) (m.fraghead log')
          (s.nodes log')) ∧
      OnlyCells (m.fraghead log :: s.nodes log) m.mem
        (linkOver m (l₁.getLastD (m.fraghead log)) (l₂.headD 0)).mem := by
  have hcells := list_cells hr hb hf hlog
  have hlist := hf.lists log hlog
  have hlast := last_listed (m.fraghead log) l₁ (mid ++ l₂)
  have hfirst := first_listed (m.fraghead log) (l₁ ++ mid) l₂
  rw [List.append_assoc, ← hl] at hfirst
  rw [← hl] at hlast
  have hcell_n := fun hne => hcells _ (hfirst hne)
  have hdropped := dropped_linkOver hr.placed (hcells _ hlast) hcell_n
  refine ⟨hdropped, ?_, fun log' hne hlog' => ?_, ?_⟩
  · rw [hl] at hcells hlist
    exact Fragments.drop l₁ mid l₂ hcells hlist hdropped
  · have hapart := lists_apart hr hb hf hlog hlog' (Ne.symm hne)
    exact (hf.lists log' hlog').other_dropped (list_cells hr hb hf hlog') hdropped
      (hapart _ hlast) fun hn => hapart _ (hfirst hn)
  · exact onlyCells_linkOver _ hr.placed (hcells _ hlast) hcell_n hlast hfirst

end Heap

/-- After a change to the fragments of one block, the lists of the other sizes stand as they did. -/
theorem Frags.change (hf : Frags m s) (log : Nat) (b : Int)
    (hblocks : ∀ log' ≠ log, fragBlocks log' s'.clusters = fragBlocks log' s.clusters)
    (hother : ∀ log' ≠ log, b ∉ fragBlocks log' s.clusters)
    (hgroup : ∀ x ≠ b, s'.group x = s.group x) (hnodup : (s'.group b).Nodup)
    (hinside : ∀ x ∈ fragBlocks log s'.clusters, ∀ i ∈ s'.group x, i < 2 ^ (12 - log))
    (horder : ∀ log' ≠ log, s'.order log' = s.order log') (horders : (s'.order log).Nodup)
    (hlisted : ∀ x, x ∈ s'.order log ↔ x ∈ fragBlocks log s'.clusters ∧ s'.group x ≠ [])
    (hcount : m'.fragblocks log = (fragBlocks log s'.clusters).length)
    (hcounts : ∀ log' ≠ log, m'.fragblocks log' = m.fragblocks log')
    (hheads : m'.fragheads = m.fragheads)
    (hlist : log < 12 → Fragments m' (m.fraghead log) (s'.nodes log))
    (hlists : ∀ log' ≠ log, log' < 12 → Fragments m' (m.fraghead log') (s.nodes log')) :
    Frags m' s' := by
  have hkept : ∀ log' ≠ log, ∀ x ∈ fragBlocks log' s.clusters, s'.group x = s.group x := by
    rintro log' hne x hx
    exact hgroup x fun hxb => hother log' hne (hxb ▸ hx)
  have hnodes : ∀ log' ≠ log, s'.nodes log' = s.nodes log' := by
    intro log' hne
    rw [Shape.nodes, Shape.nodes, horder log' hne]
    refine List.flatMap_congr fun x hx => ?_
    rw [hkept log' hne x ((hf.listed log' x).mp hx).1]
  refine ⟨?_, ?_, ?_, ?_, ?_, ?_⟩
  · intro log' x hx
    by_cases hne : log' = log
    · subst hne
      exact hinside x hx
    · rw [hblocks log' hne] at hx
      rw [hkept log' hne x hx]
      exact hf.inside log' x hx
  · intro x
    by_cases hxb : x = b
    · rw [hxb]
      exact hnodup
    · rw [hgroup x hxb]
      exact hf.groups x
  · intro log'
    by_cases hne : log' = log
    · rw [hne]
      exact horders
    · rw [horder log' hne]
      exact hf.orders log'
  · intro log' x
    by_cases hne : log' = log
    · rw [hne]
      exact hlisted x
    · rw [horder log' hne, hblocks log' hne, hf.listed log' x]
      exact and_congr_right fun hx => by rw [hkept log' hne x hx]
  · intro log' hlt
    rw [Machine.fraghead, hheads]
    by_cases hne : log' = log
    · subst hne
      exact hlist hlt
    · rw [hnodes log' hne]
      exact hlists log' hne hlt
  · intro log'
    by_cases hne : log' = log
    · rw [hne]
      exact hcount
    · rw [hcounts log' hne, hblocks log' hne]
      exact hf.counts log'

end Malloc
