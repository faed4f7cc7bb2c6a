import CobaltRom.Malloc.Fragments
import CobaltRom.Malloc.Free
import CobaltRom.Malloc.Take

/-! Whole blocks are handed out and given back while the lists of free fragments stay as they
are. -/
namespace Malloc
open DoubleLink Tiling Hoare

variable {m m' : Machine} {s s' : Shape} {b b' k lim lim' n n' : Int} {log : Nat} {fuel : Nat}
  {A B A' B' cs cs' : List Cluster} {use use' : Use} {g gr : List Nat} {o : List Int}
  {mem mem' : Ram}
  {size : UInt32}

/-! ### The lists -/

/-- The cells of the lists, at or below the end of the heap. -/
theorem list_below (hr : Ready m s.lim) (hb : Blocks m.heapinfo s.lim s.group s.clusters)
    (hf : Frags m s) (hlog : log < 12) : ∀ c ∈ m.fraghead log :: s.nodes log, ∀ a : UInt32,
      c.toNat ≤ a.toNat → a.toNat < c.toNat + 8 →
        a.toNat < (blockAddr s.lim).toNat ∨ ramHeapSpaceMax.toNat ≤ a.toNat := by
  intro c hc a hlow hhigh
  have hlim := toNat_blockAddr (b := s.lim) (by have := hr.low; omega) (by have := hr.high; omega)
  have hlowlim := hr.low
  rcases List.mem_cons.mp hc with rfl | hc
  · have hout := head_outside hr.placed hlog
    change _ ∨ 0x01f00000 ≤ _
    omega
  · obtain ⟨b, i, hfb, -, hbb, hlog3, hlt, hi, rfl⟩ := node_place hr hb hf hc
    obtain ⟨hlow', hhigh', -⟩ := hb.frag_block hfb
    have hnat := toNat_fragAddr hbb.1 hbb.2 hlt.le hi
    have hfrag := frag_lt hlt.le hi
    have hpow : 2 ^ 3 ≤ 2 ^ log := Nat.pow_le_pow_right (by omega) hlog3
    left
    omega

/-- Lists whose cells are not written stay. -/
theorem Frags.kept (hf : Frags m s) (hmem : ∀ log < 12, ∀ c ∈ m.fraghead log :: s.nodes log,
      ∀ a : UInt32, c.toNat ≤ a.toNat → a.toNat < c.toNat + 8 → m'.mem a = m.mem a)
    (hcells : ∀ log < 12, ∀ c ∈ m.fraghead log :: s.nodes log, Cell m.fragheads c)
    (hplaced : Placed m.fragheads)
    (hheads : m'.fragheads = m.fragheads) (hcount : m'.fragblocks = m.fragblocks)
    (hblocks : ∀ log, fragBlocks log s'.clusters = fragBlocks log s.clusters)
    (hgroup : s'.group = s.group) (horder : s'.order = s.order) : Frags m' s' := by
  have hnodes : ∀ log, s'.nodes log = s.nodes log := fun log => by
    rw [Shape.nodes, Shape.nodes, hgroup, horder]
  have hword : ∀ log < 12, ∀ c ∈ m.fraghead log :: s.nodes log,
      m'.listNext c = m.listNext c ∧ m'.listPrev c = m.listPrev c := by
    intro log hlog c hc
    have hbounds := (hcells log hlog c hc).bounds hplaced
    have hprev := toNat_prev hplaced (hcells log hlog c hc)
    constructor
    · refine Ram.le32_congr fun k hk => hmem log hlog c hc _ ?_ ?_ <;>
      · rw [UInt32.toNat_add, UInt32.toNat_ofNat']
        omega
    · refine Ram.le32_congr fun k hk => hmem log hlog c hc _ ?_ ?_ <;>
      · rw [UInt32.toNat_add, UInt32.toNat_ofNat', hprev]
        omega
  refine ⟨?_, ?_, ?_, ?_, ?_, ?_⟩
  · intro log x hx
    rw [hblocks] at hx
    rw [hgroup]
    exact hf.inside log x hx
  · rw [hgroup]
    exact hf.groups
  · rw [horder]
    exact hf.orders
  · intro log x
    rw [horder, hblocks, hgroup]
    exact hf.listed log x
  · intro log hlog
    rw [Machine.fraghead, hheads, hnodes]
    refine (hf.lists log hlog).congr (fun c hc => (hword log hlog c hc).1) fun c hc hk => ?_
    refine (hword log hlog c (List.mem_cons_of_mem _ ?_)).2
    exact (List.mem_append.mp hc).resolve_right fun h0 => hk (List.mem_singleton.mp h0)
  · intro log
    rw [hcount, hblocks]
    exact hf.counts log

/-! ### Giving back -/

theorem fragBlocks_joined (hj : Joined A b n B A' b' n' B') (log : Nat) :
    fragBlocks log (A' ++ ⟨b', n', .free⟩ :: B') = fragBlocks log (A ++ ⟨b, n, .large⟩ :: B) := by
  have hA : fragBlocks log A = fragBlocks log A' := by
    rcases hj.before with rfl | ⟨rfl, -, -⟩
    · rw [fragBlocks_append]
      simp [fragBlocks]
    · rfl
  have hB : fragBlocks log B = fragBlocks log B' := by
    rcases hj.behind with rfl | ⟨rfl, -, -⟩
    · simp [fragBlocks]
    · rfl
  rw [fragBlocks_append, fragBlocks_append, hA]
  change fragBlocks log A' ++ fragBlocks log B' = fragBlocks log A' ++ fragBlocks log B
  rw [hB]

/-- A large area becomes a free cluster with the free clusters beside it. The end of the heap may go
back to the system. -/
theorem Describes.freeBlocks (hd : Describes m s) (hs : s.clusters = A ++ ⟨b, n, .large⟩ :: B)
    (hlim : m.heaplimit = s.lim ∨ m.heaplimit = 0) (hfuel : 1024 < fuel) :
    ∃ m' A' b' n' B', (freeBlocks fuel (blockAddr b)).run m = some ((), m') ∧
      Joined A b n B A' b' n' B' ∧ m'.mem = m.mem ∧ m'.warned = m.warned ∧
      (m'.heaplimit = m.heaplimit ∧ m'.heapindex = b' ∧
          Describes m' { s with clusters := A' ++ ⟨b', n', .free⟩ :: B' } ∨
        B' = [] ∧ m.heaplimit = s.lim ∧ m'.heaplimit = b' ∧
          Describes m' { s with lim := b', clusters := A' }) := by
  have hblocks := hd.blocks
  have hindex := hd.index
  have hapart := hd.apart
  rw [hs] at hblocks hapart
  rw [hs, frees_append, frees_cons_large] at hindex
  obtain ⟨m', A', b', n', B', hrun, hj, hcases⟩ := freeBlocks_run hd.ready hblocks hlim hindex hfuel
  have hcells : ∀ log < 12, ∀ c ∈ m.fraghead log :: s.nodes log, Cell m.fragheads c :=
    fun log hlog => list_cells hd.ready hd.blocks hd.frags hlog
  have hfrag := fragBlocks_joined hj
  have hchain := hj.apart hapart
  refine ⟨m', A', b', n', B', hrun, hj, ?_⟩
  rcases hcases with ⟨hm', hb'⟩ | ⟨rfl, hlimit, hm', hb'⟩
  · refine ⟨by rw [hm'], by rw [hm'], Or.inl ⟨by rw [hm'], by rw [hm'], ?_, hb', ?_, hchain, ?_⟩⟩
    · rw [hm']
      have hr := hd.ready
      exact ⟨hr.initialized, hr.heapbase, hr.heapsize, hr.highWater, hr.placed, hr.low, hr.high⟩
    · have hmem : m'.mem = m.mem := by rw [hm']
      refine hd.frags.kept (fun log _ c _ a _ _ => by rw [hmem]) hcells
        hd.ready.placed (by rw [hm'])
        (by rw [hm']) (fun log => ?_) rfl rfl
      dsimp only
      rw [hfrag, hs]
    · have hindex' : m'.heapindex = b' := by rw [hm']
      rw [hindex', frees_append, frees_cons_free]
      exact List.mem_cons_of_mem _ (List.mem_append_right _ List.mem_cons_self)
  · have hlow : 4 ≤ b' := hb'.tiled.le
    have hhigh : b' ≤ s.lim := by
      obtain ⟨hA, hpos, hB⟩ := hblocks.parts
      have hend := hB.le
      rcases hj.before with rfl | ⟨rfl, rfl, -⟩
      · have := hA.around
        dsimp only at this
        omega
      · omega
    refine ⟨by rw [hm'], by rw [hm'], Or.inr ⟨rfl, hlimit, by rw [hm'], ?_, hb', ?_, ?_, ?_⟩⟩
    · rw [hm']
      have hr := hd.ready
      exact ⟨hr.initialized, hr.heapbase, hr.heapsize, rfl, hr.placed, hlow, hhigh.trans hr.high⟩
    · have hmem : m'.mem = m.mem := by rw [hm']
      refine hd.frags.kept (fun log _ c _ a _ _ => by rw [hmem]) hcells
        hd.ready.placed (by rw [hm'])
        (by rw [hm']) (fun log => ?_) rfl rfl
      dsimp only
      rw [hs, ← hfrag, fragBlocks_append]
      simp [fragBlocks]
    · exact (List.isChain_append.mp hchain).1
    · have hindex' : m'.heapindex = (frees A').getLastD 0 := by rw [hm']
      rw [hindex']
      exact last_mem A'

/-! ### Handing out -/

theorem Takes.fragBlocks (ht : Takes k lim cs b lim' cs') (log : Nat) :
    Malloc.fragBlocks log cs' = Malloc.fragBlocks log cs := by
  cases ht with
  | split A B b n hfits =>
    rw [fragBlocks_append, fragBlocks_append]
    change Malloc.fragBlocks log A ++ Malloc.fragBlocks log (leftover b n k ++ B) = _
    rw [fragBlocks_append, leftover]
    split <;> rfl
  | grow A b n hn hend hfits =>
    rw [fragBlocks_append, fragBlocks_append]
    rfl
  | fresh cs hfits =>
    rw [fragBlocks_append]
    exact List.append_nil _

theorem Takes.apart (ht : Takes k lim cs b lim' cs') (h : Apart cs) : Apart cs' := by
  cases ht with
  | split A B b n hfits =>
    obtain ⟨⟨hA, -⟩, hB⟩ := apart_free.mp h
    refine (apart_busy (by simp)).mpr ⟨hA, ?_⟩
    rw [leftover]
    split
    · exact apart_free (A := []).mpr ⟨⟨List.isChain_nil, by simp⟩, hB⟩
    · exact hB.1
  | grow A b n hn hend hfits =>
    exact (apart_busy (by simp)).mpr ⟨(apart_free.mp h).1.1, List.isChain_nil⟩
  | fresh cs hfits => exact (apart_busy (by simp)).mpr ⟨h, List.isChain_nil⟩

theorem Takes.limits (ht : Takes k lim cs b lim' cs') (hk : 0 < k) (hhigh : lim ≤ 1024) :
    lim ≤ lim' ∧ lim' ≤ 1024 := by
  cases ht with
  | split => exact ⟨le_rfl, hhigh⟩
  | grow A b n hn hend hfits => omega
  | fresh cs hfits => omega

/-- What handing out blocks may come to, for the heap. -/
inductive Describes.Gives (m : Machine) (s : Shape) (k : Int) : Option (UInt32 × Machine) → Prop
  | taken (b lim' : Int) (cs' : List Cluster) (m' : Machine) : Takes k s.lim s.clusters b lim' cs' →
      Beyond s.lim m.mem m'.mem → m'.warned = m.warned → m'.heaplimit = lim' →
      Describes m' { s with lim := lim', clusters := cs' } → Gives m s k (some (blockAddr b, m'))
  | exhausted (mem : Ram) : Exhausted k s.lim s.clusters →
      Describes { m with mem := mem, warned := true } s →
      Gives m s k (some (0, { m with mem := mem, warned := true }))

theorem Describes.mallocBlocks (hd : Describes m s)
    (hlim : m.heaplimit = s.lim ∨ m.heaplimit = 0 ∧ s.lim = 4) (hpos : size ≠ 0)
    (hsize : size.toNat < 2 ^ 31) (hfuel : 1024 < fuel) :
    Describes.Gives m s (blockify size) ((mallocBlocks fuel size).run m) := by
  obtain ⟨hk, hsmall, -⟩ := blockify_bounds hpos hsize
  have hcells : ∀ log < 12, ∀ c ∈ m.fraghead log :: s.nodes log, Cell m.fragheads c :=
    fun log hlog => list_cells hd.ready hd.blocks hd.frags hlog
  have hbelow : ∀ {mem : Ram}, Beyond s.lim m.mem mem → ∀ log < 12,
      ∀ c ∈ m.fraghead log :: s.nodes log, ∀ a : UInt32,
        c.toNat ≤ a.toNat → a.toNat < c.toNat + 8 → mem a = m.mem a :=
    fun hmem log hlog c hc a hlow hhigh =>
      hmem a (list_below hd.ready hd.blocks hd.frags hlog c hc a hlow hhigh)
  have hgiven := mallocBlocks_run hd.ready hd.blocks hd.index hk hsmall hfuel hlim rfl
  generalize (Malloc.mallocBlocks fuel size).run m = run at hgiven ⊢
  cases hgiven with
  | taken b lim' cs' m' ht hmem htable hblocks hindex =>
    have hlimits := ht.limits hk hd.ready.high
    have hr := hd.ready
    refine .taken b lim' cs' m' ht hmem (htable.warned.trans (warned_withCore m _ _ _)) ?_
      ⟨?_, hblocks, ?_, ht.apart hd.apart, hindex⟩
    · rw [htable.heaplimit, heaplimit_withCore]
    · exact (hr.withCore rfl (hr.low.trans hlimits.1) hlimits.2 m'.mem).only htable
    · refine hd.frags.kept (hbelow hmem) hcells hr.placed ?_ ?_ ht.fragBlocks rfl rfl
      · rw [htable.fragheads, fragheads_withCore]
      · rw [htable.fragblocks, fragblocks_withCore]
  | exhausted mem hmem hexhausted =>
    refine .exhausted mem hexhausted ⟨hd.ready.spent mem, hd.blocks, ?_, hd.apart, hd.index⟩
    exact hd.frags.kept (hbelow hmem) hcells hd.ready.placed rfl rfl (fun _ => rfl) rfl rfl

end Malloc
