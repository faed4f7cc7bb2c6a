import CobaltRom.Malloc.Calls

/-! `malloc`: what it gives, and when it gives nothing. -/
namespace Malloc
open DoubleLink Tiling Hoare

variable {m m' m₁ : Machine} {s s' s₁ : Shape} {k lim lim' b n : Int} {log log' i j fuel : Nat}
  {A B cs cs' : List Cluster} {p q size : UInt32} {len : Nat} {gr : List Nat} {o : List Int}

/-! ### The size of a fragment -/

theorem logLoop_bounds (left : Nat) (v : UInt32) (log : Nat) (hv : v.toNat < 2 ^ left) :
    ∃ d, logLoop left v log = log + d ∧ v.toNat < 2 ^ (d + 1) ∧ (d ≠ 0 → 2 ^ d ≤ v.toNat) := by
  induction left generalizing v log with
  | zero =>
    refine ⟨0, rfl, ?_, fun h => absurd rfl h⟩
    rw [pow_zero] at hv
    omega
  | succ left ih =>
    have hhalf : (v >>> 1).toNat = v.toNat / 2 := by
      rw [UInt32.toNat_shiftRight]
      exact Nat.shiftRight_eq_div_pow _ _
    rw [pow_succ] at hv
    rw [logLoop]
    split
    case isTrue hne =>
      have hpos : (v >>> 1).toNat ≠ 0 := fun hz => hne (UInt32.toNat_inj.mp hz)
      obtain ⟨d, hd, hlt, hle⟩ := ih (v >>> 1) (log + 1) (by rw [hhalf]; omega)
      rw [hhalf] at hlt hle hpos
      refine ⟨d + 1, by rw [hd, Nat.add_assoc, Nat.add_comm 1], ?_, fun _ => ?_⟩
      · rw [pow_succ]
        omega
      · rw [pow_succ]
        by_cases hd0 : d = 0
        · subst hd0
          rw [pow_zero]
          omega
        · have := hle hd0
          omega
    case isFalse hz =>
      rw [not_not] at hz
      rw [hz] at hhalf
      change 0 = _ at hhalf
      exact ⟨0, rfl, by omega, fun h => absurd rfl h⟩

/-- The fragments are large enough, and there is a list for their size. -/
theorem fragLog_bounds (hlow : 8 ≤ size.toNat) (hhigh : size.toNat ≤ 2048) :
    3 ≤ fragLog size ∧ fragLog size < 12 ∧ size.toNat ≤ 2 ^ fragLog size := by
  have hminus : (size - 1).toNat = size.toNat - 1 := by
    rw [UInt32.toNat_sub]
    change (2 ^ 32 - 1 + size.toNat) % 2 ^ 32 = _
    omega
  obtain ⟨d, hd, hlt, hle⟩ := logLoop_bounds 32 (size - 1) 1 (size - 1).toNat_lt
  rw [hminus] at hlt hle
  rw [fragLog, hd]
  have hd2 : 2 ≤ d := by
    by_contra hlow'
    have : 2 ^ (d + 1) ≤ 2 ^ 2 := Nat.pow_le_pow_right (by omega) (by omega)
    omega
  have hd10 : d ≤ 10 := by
    by_contra hhigh'
    have h₁ : 2 ^ 11 ≤ 2 ^ d := Nat.pow_le_pow_right (by omega) (by omega)
    have h₂ := hle (by omega)
    omega
  refine ⟨by omega, by omega, ?_⟩
  rw [Nat.add_comm]
  omega

/-! ### What may come of a call -/

/-- The bytes that `malloc` looks for. -/
def roundedSize (size : UInt32) : UInt32 := if size < listBytes then listBytes else size

theorem roundedSize_bounds (hsize : size.toNat < 2 ^ 31) : 8 ≤ (roundedSize size).toNat ∧
    size.toNat ≤ (roundedSize size).toNat ∧ (roundedSize size).toNat < 2 ^ 31 := by
  rw [roundedSize]
  split
  case isTrue hlt =>
    have : size.toNat < 8 := UInt32.lt_iff_toNat_lt.mp hlt
    change 8 ≤ 8 ∧ size.toNat ≤ 8 ∧ 8 < 2 ^ 31
    omega
  case isFalse hge =>
    have : ¬ size.toNat < 8 := fun hlt => hge (UInt32.lt_iff_toNat_lt.mpr hlt)
    omega

/-- Nothing is left for a request. -/
def Full (s : Shape) (size : UInt32) : Prop :=
  if roundedSize size ≤ blocksize / 2 then
    (∀ b ∈ fragBlocks (fragLog (roundedSize size)) s.clusters, s.group b = []) ∧
      Exhausted 1 s.lim s.clusters
  else Exhausted (blockify (roundedSize size)) s.lim s.clusters

/-- The blocks that the heap may have to grow by. -/
def need (size : UInt32) : Int := blockify (roundedSize size)

theorem need_pos (hsize : size.toNat < 2 ^ 31) : 0 < need size := by
  obtain ⟨hlow, -, hhigh⟩ := roundedSize_bounds hsize
  refine (blockify_bounds (fun hz => ?_) hhigh).1
  rw [hz] at hlow
  exact absurd hlow (by decide)

/-- Nothing is left only where the heap cannot grow either. -/
theorem Full.room (hfull : Full s size) (hsize : size.toNat < 2 ^ 31) :
    1024 < s.lim + need size := by
  have hpos := need_pos hsize
  rw [Full] at hfull
  split at hfull
  · have := hfull.2.2.1
    omega
  · exact hfull.2.1

/-- What `malloc` may come to: nothing is asked for, or nothing is left and `sbrk` warns, or an area
is handed out and the others stay, with what is in them. -/
inductive Allocates (m : Machine) (s : Shape) (size : UInt32) : Option (UInt32 × Machine) → Prop
  | null : size = 0 → Allocates m s size (some (0, m))
  | spent (m' : Machine) : size ≠ 0 → Full s size → m'.warned = true →
      Allocates m s size (some (0, m'))
  | area (p : UInt32) (len : Nat) (m' : Machine) (s' : Shape) : size ≠ 0 → ¬ Full s size →
      size.toNat ≤ len → (∀ n, ¬ s.Holds p n) → Sound m' s' →
      (∀ q n, s'.Holds q n ↔ s.Holds q n ∨ q = p ∧ n = len) → Keeps s.Holds m.mem m'.mem →
      m'.warned = m.warned → s'.lim ≤ s.lim + need size →
      Allocates m s size (some (p, m'))

/-- The heap grows by no more than what is taken. -/
theorem Takes.lim_le (ht : Takes k lim cs b lim' cs') (hk : 0 < k)
    (h : Tiled Cluster.start Cluster.size 4 cs lim) : lim' ≤ lim + k := by
  cases ht with
  | split A B b n hfits => omega
  | grow A b n hn hend hfits =>
    have hpos : 0 < n := h.around.2.1
    omega
  | fresh cs hfits => exact le_rfl

theorem Takes.not_exhausted (ht : Takes k lim cs b lim' cs') : ¬ Exhausted k lim cs := by
  rintro ⟨hfree, hroom, hlast⟩
  cases ht with
  | split A B b n hfits =>
    have := hfree ⟨b, n, .free⟩ (List.mem_append_right _ List.mem_cons_self) rfl
    dsimp only at this
    omega
  | grow A b n hn hend hfits =>
    have := hlast ⟨b, n, .free⟩ (by rw [List.getLast?_concat]; rfl) rfl
    dsimp only at this
    omega
  | fresh cs hfits => omega

section Malloc

variable (h : Sound m s) (hfuel : 1024 < fuel)
include h

theorem Sound.taken {cs' : List Cluster} (hd : Describes m' { s with lim := lim', clusters := cs' })
    (ht : Takes k s.lim s.clusters b lim' cs') (hlimit : m'.heaplimit = lim') :
    Sound m' { s with lim := lim', clusters := cs' } := by
  refine ⟨hd, Or.inl hlimit, ?_⟩
  intro log x hx hlen
  dsimp only at hx hlen ⊢
  rw [ht.fragBlocks] at hx ⊢
  exact h.sole log x hx hlen

include hfuel in
theorem Sound.mallocBlocks (hsize : size.toNat < 2 ^ 31)
    (hlarge : 2048 < (roundedSize size).toNat) :
    Allocates m s size ((Malloc.mallocBlocks fuel (roundedSize size)).run m) := by
  obtain ⟨-, hround, hhigh⟩ := roundedSize_bounds hsize
  have hpos : roundedSize size ≠ 0 := by
    intro hz
    rw [hz] at hlarge
    exact absurd hlarge (by decide)
  have hsize0 : size ≠ 0 := by
    rintro rfl
    exact absurd hlarge (by decide)
  have hfull : Full s size ↔ Exhausted (blockify (roundedSize size)) s.lim s.clusters := by
    rw [Full, if_neg]
    intro hle
    have : (roundedSize size).toNat ≤ 2048 := UInt32.le_iff_toNat_le.mp hle
    omega
  obtain ⟨hk, -, hfits⟩ := blockify_bounds hpos hhigh
  have hgives := h.describes.mallocBlocks h.limit hpos hhigh hfuel
  generalize (Malloc.mallocBlocks fuel (roundedSize size)).run m = run at hgives ⊢
  cases hgives with
  | taken b lim' cs' m' ht hmem hw hlimit hd =>
    refine .area _ _ m' _ hsize0 (fun hf => ht.not_exhausted (hfull.mp hf)) ?_
      (fun n => h.describes.taken_fresh ht) (h.taken hd ht hlimit) (fun q n => ht.holding)
      (h.describes.keeps_beyond hmem) hw (ht.lim_le hk h.describes.blocks.tiled)
    omega
  | exhausted mem hex _ => exact .spent _ hsize0 (hfull.mpr hex) rfl

/-- The list of a size is empty if no block of that size has a free fragment. -/
theorem Sound.order_nil (hnext : m.listNext (m.fraghead log) = 0) (hlog : log < 12) :
    s.order log = [] := by
  have hf := h.describes.frags
  have hhead := (hf.lists log hlog).at_head
  rw [hnext] at hhead
  by_contra hne
  obtain ⟨b, o, ho⟩ := List.exists_cons_of_ne_nil hne
  obtain ⟨hb, hg⟩ := (hf.listed log b).mp (by rw [ho]; exact List.mem_cons_self)
  obtain ⟨i, gr, hg⟩ := List.exists_cons_of_ne_nil hg
  have hnodes : s.nodes log = fragAddr b log i :: (gr.map (fragAddr b log) ++ s.spread log o) := by
    rw [nodes_eq_spread, ho, spread_cons, hg]
    rfl
  rw [hnodes, List.headD_cons] at hhead
  have hi := hf.inside log b hb i (by rw [hg]; exact List.mem_cons_self)
  exact (used_cell h.describes hlog hb hi).2 hhead.symm

/-- The first free fragment is handed out. -/
theorem Sound.popFragment (hnext : m.listNext (m.fraghead log) ≠ 0) (hlog : log < 12) :
    ∃ b i m' s', b ∈ fragBlocks log s.clusters ∧ s.group b ≠ [] ∧
      (Malloc.popFragment log (m.listNext (m.fraghead log))).run m = some (fragAddr b log i, m') ∧
      (∀ n, ¬ s.Holds (fragAddr b log i) n) ∧ Sound m' s' ∧
      (∀ q n, s'.Holds q n ↔ s.Holds q n ∨ q = fragAddr b log i ∧ n = 2 ^ log) ∧
      Keeps s.Holds m.mem m'.mem ∧ m'.warned = m.warned ∧ s'.lim = s.lim := by
  have hd := h.describes
  have hf := hd.frags
  have hhead := (hf.lists log hlog).at_head
  cases ho : s.order log with
  | nil =>
    rw [nodes_eq_spread, ho] at hhead
    exact absurd hhead hnext
  | cons b o =>
    obtain ⟨hb, hg⟩ := (hf.listed log b).mp (by rw [ho]; exact List.mem_cons_self)
    obtain ⟨i, gr, hg⟩ := List.exists_cons_of_ne_nil hg
    have hmem : i ∈ s.group b := by
      rw [hg]
      exact List.mem_cons_self
    have hi := hf.inside log b hb i hmem
    have hnodes :
        s.nodes log = fragAddr b log i :: (gr.map (fragAddr b log) ++ s.spread log o) := by
      rw [nodes_eq_spread, ho, spread_cons, hg]
      rfl
    rw [hnodes, List.headD_cons] at hhead
    obtain ⟨m', hrun, hd', hlimit, hcells⟩ := popFragment_describes hd hlog ho hg
    have hgr : ∀ j, j ∉ gr ↔ j ∉ s.group b ∨ j = i := by
      have hnodup := hf.groups b
      rw [hg] at hnodup ⊢
      obtain ⟨hfresh, -⟩ := List.nodup_cons.mp hnodup
      intro j
      rw [List.mem_cons, not_or]
      constructor
      · intro hj
        by_cases hji : j = i
        · exact Or.inr hji
        · exact Or.inl ⟨hji, hj⟩
      · rintro (hj | rfl)
        · exact hj.2
        · exact hfresh
    refine ⟨b, i, m', _, hb, List.ne_nil_of_mem hmem, by rw [hhead]; exact hrun,
      fun n => hd.free_not_held hb hmem, h.withGroup hd' hlimit hb fun hfull => ?_,
      fun q n => hd.take_fragment hb hi hgr, hcells.keeps fun p len hp => hd.cell_outside hp hlog,
      popFragment_silent _ _ _ _ _ hrun, rfl⟩
    have hle := h.group_le hb
    rw [hg, List.length_cons] at hle
    omega

/-- A block is broken up where none of its size is, and one of its fragments is in use. -/
theorem Sound.broken (hs : s.clusters = A ++ ⟨b, 1, .large⟩ :: B) (ho : s.order log = [])
    (hd : Describes m' (s.withUse A b (.frag log) B gr log [b]))
    (hlimit : m'.heaplimit = m.heaplimit)
    (hused : gr.length ≠ 2 ^ (12 - log)) : Sound m' (s.withUse A b (.frag log) B gr log [b]) := by
  refine ⟨hd, ?_, ?_⟩
  · rw [hlimit]
    exact h.limit
  · intro log' x hx hlen
    have hall : x ∈ fragBlocks log' (A ++ ⟨b, 1, .frag log⟩ :: B) := hx
    change (fragBlocks log' (A ++ ⟨b, 1, .frag log⟩ :: B)).length = 1
    by_cases hxb : x = b
    · subst hxb
      have hb : x ∈ fragBlocks log (A ++ ⟨x, 1, .frag log⟩ :: B) := by
        rw [fragBlocks_around, if_pos rfl]
        exact List.mem_append_right _ List.mem_cons_self
      obtain rfl := hd.blocks.one_size hx hb
      have hgroup : (s.withUse A x (.frag log') B gr log' [x]).group x = gr := by
        simp [Shape.withUse]
      rw [hgroup] at hlen
      exact absurd hlen hused
    · have hgroup : (s.withUse A b (.frag log) B gr log [b]).group x = s.group x := by
        simp [Shape.withUse, hxb]
      rw [hgroup] at hlen
      have hold : x ∈ fragBlocks log' s.clusters := by
        rw [hs]
        exact (other_fragBlocks (.frag log) .large hxb).mp hall
      have hll : log' ≠ log := by
        rintro rfl
        have hpos := Nat.two_pow_pos (12 - log')
        have hne : s.group x ≠ [] := fun hnil => by
          rw [hnil, List.length_nil] at hlen
          omega
        have hmem := (h.describes.frags.listed log' x).mpr ⟨hold, hne⟩
        rw [ho] at hmem
        cases hmem
      have hone := h.sole log' x hold hlen
      rw [hs, fragBlocks_around, if_neg (by simp)] at hone
      rw [fragBlocks_around, if_neg fun heq => hll (Use.frag.inj heq).symm]
      exact hone

/-- One of the fragments of a new block is handed out. -/
theorem Sound.breakBlock (hs : s.clusters = A ++ ⟨b, 1, .large⟩ :: B) (hlog3 : 3 ≤ log)
    (hlog : log < 12) (ho : s.order log = []) :
    ∃ m₁ s', (linkFragments log (blockAddr b) (4096 >>> log - 1) 1).run { m with
        fragblocks := Function.update m.fragblocks log (m.fragblocks log + 1) } = some ((), m₁) ∧
      m₁.heapbase = m.heapbase ∧
      Sound (m₁.setInfo b ⟨log, (4096 >>> log - 1 : Nat), (4096 >>> log - 1 : Nat)⟩) s' ∧
      (∀ q n, s'.Holds q n ↔ s.Holds q n ∧ q ≠ blockAddr b ∨ q = blockAddr b ∧ n = 2 ^ log) ∧
      Keeps (fun q n => s.Holds q n ∧ q ≠ blockAddr b) m.mem m₁.mem ∧ s'.lim = s.lim := by
  have hd := h.describes
  have htiled := hd.blocks.tiled
  have hhigh := hd.ready.high
  rw [hs] at htiled
  have hbb : 4 ≤ b ∧ b < 1024 := by
    obtain ⟨hA, hpos, hB⟩ := htiled.around
    have hlow := hA.le
    have hend := hB.le
    dsimp only at hlow hend
    omega
  have hpow : 1 < 2 ^ (12 - log) := Nat.one_lt_two_pow (by omega)
  obtain ⟨m₁, hrun, hbase, hlimit, hd', hcells⟩ := linkFragments_describes hd hlog3 hlog hs ho
  rw [fragment_count hlog.le] at *
  have hgroup : ∀ x, x ≠ b →
      (s.withUse A b (.frag log) B (downFrom (2 ^ (12 - log) - 1)) log [b]).group x = s.group x :=
    fun x hx => by simp [Shape.withUse, hx]
  have hgroup_b : (s.withUse A b (.frag log) B (downFrom (2 ^ (12 - log) - 1)) log [b]).group b =
      downFrom (2 ^ (12 - log) - 1) := by simp [Shape.withUse]
  have hused : (downFrom (2 ^ (12 - log) - 1)).length ≠ 2 ^ (12 - log) := by
    rw [length_downFrom]
    omega
  refine ⟨m₁, _, hrun, hbase, h.broken hs ho hd' hlimit hused, ?_, ?_, rfl⟩
  · intro q n
    rw [Shape.split_holds (s := s.withUse A b (.frag log) B _ log [b]) (A := A) (B := B) rfl,
      ← hd.other_large hs]
    refine or_congr (holding_congr fun c hc => hgroup _ (htiled.start_ne hc)) ?_
    rw [Cluster.Holds, hgroup_b]
    constructor
    · rintro ⟨i, hi, hused, rfl, rfl⟩
      obtain rfl : i = 0 := by
        by_contra hne
        exact hused (mem_downFrom.mpr ⟨by omega, by omega⟩)
      exact ⟨(blockAddr_eq_fragAddr b log).symm, rfl⟩
    · rintro ⟨rfl, rfl⟩
      refine ⟨0, by omega, fun hmem => ?_, blockAddr_eq_fragAddr b log, rfl⟩
      have := (mem_downFrom.mp hmem).1
      omega
  · refine hcells.keeps fun q n hq c hc => ?_
    obtain ⟨hq, hne⟩ := hq
    rcases List.mem_cons.mp hc with rfl | hc
    · exact hd.cell_outside hq hlog _ List.mem_cons_self
    · obtain ⟨j, hj, rfl⟩ := mem_blockCells.mp hc
      have hb : s.Holds (blockAddr b) (1 * 4096 : Int).toNat := by
        refine ⟨⟨b, 1, .large⟩, ?_, rfl, rfl⟩
        rw [hs]
        exact List.mem_append_right _ List.mem_cons_self
      have hapart := (hd.disjoint hq hb).resolve_left fun heq => hne heq.1
      have hnat := toNat_fragAddr (by omega) (by omega) hlog.le hj (b := b)
      have hblock := toNat_blockAddr (b := b) (by omega) (by omega)
      have hlt := frag_lt hlog.le hj
      have hpow3 : 2 ^ 3 ≤ 2 ^ log := Nat.pow_le_pow_right (by omega) hlog3
      omega

section Calls

variable (hsize : size.toNat < 2 ^ 31)
include hfuel hsize

theorem Sound.newFragments (hsize0 : size ≠ 0) (hsmall : (roundedSize size).toNat ≤ 2048)
    (ho : s.order (fragLog (roundedSize size)) = []) :
    Allocates m s size ((Malloc.newFragments fuel (fragLog (roundedSize size))).run m) := by
  obtain ⟨hlow, hround, -⟩ := roundedSize_bounds hsize
  obtain ⟨hlog3, hlog, hfits⟩ := fragLog_bounds hlow hsmall
  have hfull : Full s size ↔ Exhausted 1 s.lim s.clusters := by
    rw [Full, if_pos (UInt32.le_iff_toNat_le.mpr hsmall)]
    refine and_iff_right fun b hb => ?_
    by_contra hne
    have hmem := (h.describes.frags.listed _ b).mpr ⟨hb, hne⟩
    rw [ho] at hmem
    cases hmem
  generalize fragLog (roundedSize size) = log at *
  have hone : blockify blocksize = 1 := by decide
  have hgives := h.describes.mallocBlocks h.limit (by decide : blocksize ≠ 0) (by decide) hfuel
  rw [hone] at hgives
  rw [Malloc.newFragments]
  generalize hrun : (Malloc.mallocBlocks fuel blocksize).run m = run at hgives
  cases hgives with
  | exhausted mem hex _ =>
    rw [run_bind_some hrun, if_pos rfl]
    exact .spent _ hsize0 (hfull.mpr hex) rfl
  | taken b lim' cs' m' ht hmem hw hlimit hd =>
    obtain ⟨A, B, hs⟩ := ht.at
    have hsound := h.taken hd ht hlimit
    have hblocks := hd.blocks
    dsimp only at hblocks
    rw [hs] at hblocks
    obtain ⟨hA, hpos, hB⟩ := hblocks.parts
    have hbegin := hA.le
    have hend := hB.le
    have hhigh := hd.ready.high
    dsimp only at hhigh
    have hne : blockAddr b ≠ 0 := blockAddr_ne_zero (by omega) (by omega)
    obtain ⟨m₁, s', hlink, hbase, hsound', hholds, hkeeps, hlim⟩ :=
      hsound.breakBlock hs hlog3 hlog ho
    have hw₁ : Silent { m' with
        fragblocks := Function.update m'.fragblocks log (m'.fragblocks log + 1) } m₁ :=
      linkFragments_silent log _ _ _ _ _ _ hlink
    have hfresh : ∀ n, ¬ s.Holds (blockAddr b) n := fun n => h.describes.taken_fresh ht
    have hholds' : ∀ q n, s'.Holds q n ↔ s.Holds q n ∨ q = blockAddr b ∧ n = 2 ^ log := by
      intro q n
      rw [hholds]
      refine or_congr_left ?_
      have htaken : Shape.Holds { s with lim := lim', clusters := cs' } q n ↔ _ := ht.holding
      rw [htaken]
      constructor
      · rintro ⟨hq | hq, hne⟩
        · exact hq
        · exact absurd hq.1 hne
      · exact fun hq => ⟨Or.inl hq, fun heq => hfresh n (heq ▸ hq)⟩
    have hblock : m₁.block (blockAddr b) = b :=
      block_blockAddr (hbase.trans hd.ready.heapbase) (by omega) (by omega)
    rw [run_bind_some hrun, if_neg hne, run_modify_bind]
    dsimp only
    rw [run_bind_some hlink, run_modify_bind, hblock]
    refine .area _ _ _ s' hsize0 (fun hf => ht.not_exhausted (hfull.mp hf))
      (hround.trans hfits) hfresh
      hsound' hholds' ?_ ?_ ?_
    · refine (h.describes.keeps_beyond hmem).trans (hkeeps.mono fun q n hq => ?_)
      exact ⟨ht.holding.mpr (Or.inl hq), fun heq => hfresh n (heq ▸ hq)⟩
    · exact Eq.trans hw₁ hw
    · have hgrown := ht.lim_le Int.one_pos h.describes.blocks.tiled
      have hpos := need_pos hsize
      exact hlim.trans_le (hgrown.trans (Int.add_le_add_left hpos s.lim))

omit h hfuel hsize in
theorem malloc_large (hinit : m.initialized = true) (hsize0 : size ≠ 0)
    (hlarge : 2048 < (roundedSize size).toNat) (fuel : Nat) :
    (Malloc.malloc fuel size).run m = (Malloc.mallocBlocks fuel (roundedSize size)).run m := by
  have hnot : ¬ roundedSize size ≤ blocksize / 2 := by
    intro hle
    have : (roundedSize size).toNat ≤ 2048 := UInt32.le_iff_toNat_le.mp hle
    omega
  rw [Malloc.malloc, run_get_bind]
  dsimp only
  rw [hinit, if_pos rfl, pure_bind, if_neg Bool.false_ne_true.symm, if_neg hsize0,
    show (if size < listBytes then listBytes else size) = roundedSize size from rfl, if_neg hnot]

/-- `malloc`, once the allocator is ready. -/
theorem Sound.malloc : Allocates m s size ((Malloc.malloc fuel size).run m) := by
  obtain ⟨hlow, hround, -⟩ := roundedSize_bounds hsize
  have hinit := h.describes.ready.initialized
  by_cases hlarge : 2048 < (roundedSize size).toNat
  · have hsize0 : size ≠ 0 := by
      rintro rfl
      exact absurd hlarge (by decide)
    rw [malloc_large hinit hsize0 hlarge]
    exact h.mallocBlocks hfuel hsize hlarge
  have hsmall : (roundedSize size).toNat ≤ 2048 := by omega
  rw [Malloc.malloc, run_get_bind]
  dsimp only
  rw [hinit, if_pos rfl, pure_bind, if_neg Bool.false_ne_true.symm]
  split
  case isTrue hz =>
    have hnull : Allocates m s size (some (0, m)) := .null hz
    exact hnull
  case isFalse hsize0 =>
    rw [show (if size < listBytes then listBytes else size) = roundedSize size from rfl,
      if_pos (UInt32.le_iff_toNat_le.mpr hsmall), run_get_bind]
    obtain ⟨-, hlog, hfits⟩ := fragLog_bounds hlow hsmall
    split
    case isTrue hnext =>
      obtain ⟨b, i, m', s', hb, hg, hrun, hfresh, hsound, hholds, hkeeps, hw, hlim⟩ :=
        h.popFragment hnext hlog
      change Allocates m s size ((Malloc.popFragment (fragLog (roundedSize size)) _).run m)
      rw [hrun]
      have hpos := need_pos hsize
      refine .area _ _ m' s' hsize0 (fun hf => ?_) (hround.trans hfits) hfresh hsound
        hholds hkeeps hw
        (by omega)
      rw [Full, if_pos (UInt32.le_iff_toNat_le.mpr hsmall)] at hf
      exact hg (hf.1 b hb)
    case isFalse hnext =>
      exact h.newFragments hfuel hsize hsize0 hsmall (h.order_nil (not_not.mp hnext) hlog)

end Calls

end Malloc

end Malloc
