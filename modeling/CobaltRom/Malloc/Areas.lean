import CobaltRom.Malloc.Break

/-! The areas that have been handed out: large ones, and the fragments that are not free. -/
namespace Malloc
open DoubleLink Tiling

variable {m m' : Machine} {s s' : Shape} {lim lim' b b' k n n' : Int} {log log' i j : Nat}
  {A B A' B' cs cs' : List Cluster} {c d : Cluster} {g g' : Int → List Nat} {p q x : UInt32}
  {len len' : Nat}
  {held held' : UInt32 → Nat → Prop} {mem mem' mem'' : Ram} {info : Int → Info}

/-- `len` bytes at `p` have been handed out from a cluster. -/
def Cluster.Holds (c : Cluster) (group : List Nat) (p : UInt32) (len : Nat) : Prop :=
  match c.use with
  | .free => False
  | .large => p = blockAddr c.start ∧ len = (c.size * 4096).toNat
  | .frag log => ∃ i < 2 ^ (12 - log), i ∉ group ∧ p = fragAddr c.start log i ∧ len = 2 ^ log

def Holding (g : Int → List Nat) (cs : List Cluster) (p : UInt32) (len : Nat) : Prop :=
  ∃ c ∈ cs, c.Holds (g c.start) p len

/-- The `len` bytes at `p` have been handed out. -/
def Shape.Holds (s : Shape) : UInt32 → Nat → Prop := Holding s.group s.clusters

theorem holding_nil (g : Int → List Nat) : ¬ Holding g [] p len := by
  simp [Holding]

theorem holding_cons :
    Holding g (c :: cs) p len ↔ c.Holds (g c.start) p len ∨ Holding g cs p len := by
  simp [Holding]

theorem holding_append : Holding g (A ++ B) p len ↔ Holding g A p len ∨ Holding g B p len := by
  simp only [Holding, List.mem_append, or_and_right, exists_or]

theorem holding_congr (h : ∀ c ∈ cs, g' c.start = g c.start) :
    Holding g' cs p len ↔ Holding g cs p len :=
  exists_congr fun c => and_congr_right fun hc => by rw [h c hc]

/-- The areas in one cluster and in the others. -/
theorem Shape.split_holds (hs : s.clusters = A ++ c :: B) :
    s.Holds p len ↔ Holding s.group (A ++ B) p len ∨ c.Holds (s.group c.start) p len := by
  rw [Shape.Holds, hs, holding_append, holding_cons, holding_append]
  tauto

/-! ### Where areas lie -/

theorem blockAddr_eq_fragAddr (b : Int) (log : Nat) : blockAddr b = fragAddr b log 0 := by
  rw [fragAddr, Nat.zero_mul]
  exact (UInt32.add_zero _).symm

/-- Where in a cluster an area lies. -/
structure Placement (c : Cluster) (group : List Nat) (p : UInt32) (len off : Nat) : Prop where
  busy : c.use ≠ .free
  address : (p.toNat : Int) = 0x01b00000 + (c.start - 1) * 4096 + off
  fits : (off : Int) + len ≤ c.size * 4096
  aligned : 8 ∣ off
  size : 8 ≤ len
  kind : c.use = .large ∧ off = 0 ∧ len = c.size * 4096 ∨
    ∃ log i, c.use = .frag log ∧ off = i * 2 ^ log ∧ len = 2 ^ log ∧ i ∉ group

section Heap

variable (hb : Blocks info lim g cs) (hhigh : lim ≤ 1024)
include hb hhigh

theorem Blocks.placement (hc : c ∈ cs) (h : c.Holds (g c.start) p len) :
    ∃ off, Placement c (g c.start) p len off := by
  obtain ⟨b, n, use⟩ := c
  have hmem := hb.tiled.mem hc
  have hentry := hb.entries _ hc
  dsimp only at hmem
  cases use with
  | free => exact h.elim
  | large =>
    obtain ⟨rfl, hlen⟩ := h
    dsimp only at hlen
    have hnat := toNat_blockAddr (b := b) (by omega) (by omega)
    refine ⟨0, by simp, by dsimp only; omega, ?_, by omega, by omega, Or.inl ⟨rfl, rfl, ?_⟩⟩ <;>
    · dsimp only
      omega
  | frag log =>
    obtain ⟨i, hi, hfresh, rfl, rfl⟩ := h
    obtain ⟨hsize, hlog3, hlog, -⟩ := hentry
    dsimp only at hsize hi
    have hnat := toNat_fragAddr (by omega) (by omega) hlog.le hi (b := b)
    have hlt := frag_lt hlog.le hi
    have hpow : 2 ^ log = 8 * 2 ^ (log - 3) := by
      rw [show 8 = 2 ^ 3 from rfl, ← Nat.pow_add, Nat.add_sub_cancel' hlog3]
    have hpos := Nat.two_pow_pos (log - 3)
    refine ⟨i * 2 ^ log, by simp, hnat, by dsimp only; omega, ?_, by omega,
      Or.inr ⟨log, i, rfl, rfl, rfl, hfresh⟩⟩
    rw [hpow]
    exact Dvd.dvd.mul_left (Nat.dvd_mul_right 8 _) i

/-- An area lies in the heap, at a multiple of eight. -/
theorem Blocks.bounds (h : Holding g cs p len) : 0x01b03000 ≤ p.toNat ∧
    p.toNat + len ≤ (blockAddr lim).toNat ∧ p.toNat % 8 = 0 ∧ 8 ≤ len := by
  obtain ⟨c, hc, h⟩ := h
  obtain ⟨off, hp⟩ := hb.placement hhigh hc h
  have hmem := hb.tiled.mem hc
  have hlim := toNat_blockAddr (b := lim) (by omega) (by omega)
  obtain ⟨-, haddress, hfits, haligned, hsize, -⟩ := hp
  omega

/-- Two areas do not overlap. -/
theorem Blocks.disjoint (h : Holding g cs p len) (h' : Holding g cs q len') :
    p = q ∧ len = len' ∨ p.toNat + len ≤ q.toNat ∨ q.toNat + len' ≤ p.toNat := by
  obtain ⟨c, hc, h⟩ := h
  obtain ⟨d, hd, h'⟩ := h'
  obtain ⟨off, -, hp, hfits, -, -, hkind⟩ := hb.placement hhigh hc h
  obtain ⟨off', -, hq, hfits', -, -, hkind'⟩ := hb.placement hhigh hd h'
  by_cases hcd : c = d
  · subst hcd
    have hpq : off = off' → p = q := fun heq => UInt32.toNat_inj.mp (by omega)
    rcases hkind with ⟨huse, hoff, hlen⟩ | ⟨log, i, huse, hoff, hlen, -⟩ <;>
      rcases hkind' with ⟨huse', hoff', hlen'⟩ | ⟨log', j, huse', hoff', hlen', -⟩
    · exact Or.inl ⟨hpq (by omega), by omega⟩
    · rw [huse] at huse'
      cases huse'
    · rw [huse] at huse'
      cases huse'
    · rw [huse] at huse'
      cases huse'
      by_cases hij : i = j
      · exact Or.inl ⟨hpq (by rw [hoff, hoff', hij]), by rw [hlen, hlen']⟩
      · right
        rcases Nat.lt_or_gt_of_ne hij with hlt | hlt
        · have := Nat.mul_le_mul_right (2 ^ log) hlt
          rw [Nat.succ_mul] at this
          omega
        · have := Nat.mul_le_mul_right (2 ^ log) hlt
          rw [Nat.succ_mul] at this
          omega
  · right
    have hmem := hb.tiled.mem hc
    have hmem' := hb.tiled.mem hd
    by_cases hlt : c.start < d.start + d.size ∧ d.start < c.start + c.size
    · exact absurd (hb.tiled.unique hc hd hlt.1 hlt.2) hcd
    · omega

/-- No area of another cluster begins in this one. -/
theorem Blocks.elsewhere (hd : d ∈ cs) (hc : c ∈ cs) (hne : c ≠ d) (h : c.Holds (g c.start) p len) :
    (p.toNat : Int) < 0x01b00000 + (d.start - 1) * 4096 ∨
      0x01b00000 + (d.start + d.size - 1) * 4096 ≤ (p.toNat : Int) := by
  obtain ⟨off, -, hp, hfits, -, hsize, -⟩ := hb.placement hhigh hc h
  have hmem := hb.tiled.mem hc
  have hmem' := hb.tiled.mem hd
  by_cases hlt : c.start < d.start + d.size ∧ d.start < c.start + c.size
  · exact absurd (hb.tiled.unique hc hd hlt.1 hlt.2) hne
  · omega

end Heap

/-! ### What stays in them -/

/-- Areas are as they were. -/
def Keeps (held : UInt32 → Nat → Prop) (mem mem' : Ram) : Prop :=
  ∀ p len, held p len → ∀ a : UInt32, p.toNat ≤ a.toNat → a.toNat < p.toNat + len → mem' a = mem a

theorem Keeps.trans (h : Keeps held mem mem') (h' : Keeps held mem' mem'') : Keeps held mem mem'' :=
  fun p len hp a hlow hhigh => (h' p len hp a hlow hhigh).trans (h p len hp a hlow hhigh)

theorem Keeps.mono (h : Keeps held mem mem') (hsub : ∀ p len, held' p len → held p len) :
    Keeps held' mem mem' := fun p len hp => h p len (hsub p len hp)

theorem Keeps.refl (held : UInt32 → Nat → Prop) (mem : Ram) : Keeps held mem mem :=
  fun _ _ _ _ _ _ => rfl

/-- Cells that lie in none of the areas are written. -/
theorem OnlyCells.keeps {cells : List UInt32} (h : OnlyCells cells mem mem')
    (hout : ∀ p len, held p len → ∀ c ∈ cells, p.toNat + len ≤ c.toNat ∨ c.toNat + 8 ≤ p.toNat) :
    Keeps held mem mem' := by
  intro p len hp a hlow hhigh
  refine h a fun c hc => ?_
  have := hout p len hp c hc
  omega

section Heap

variable (hd : Describes m s)
include hd

theorem Describes.bounds (h : s.Holds p len) : 0x01b03000 ≤ p.toNat ∧
    p.toNat + len ≤ (blockAddr s.lim).toNat ∧ p.toNat % 8 = 0 ∧ 8 ≤ len :=
  hd.blocks.bounds hd.ready.high h

theorem Describes.disjoint (h : s.Holds p len) (h' : s.Holds q len') :
    p = q ∧ len = len' ∨ p.toNat + len ≤ q.toNat ∨ q.toNat + len' ≤ p.toNat :=
  hd.blocks.disjoint hd.ready.high h h'

theorem Describes.inside (h : s.Holds p len) : p.toNat + len ≤ 0x01eff000 := by
  have hbounds := hd.bounds h
  have hlim := toNat_blockAddr (b := s.lim) (by have := hd.ready.low; omega)
    (by have := hd.ready.high; omega)
  have := hd.ready.high
  omega

/-- The cells of the lists lie in none of the areas. -/
theorem Describes.cell_outside (h : s.Holds p len) (hlog : log < 12) :
    ∀ x ∈ m.fraghead log :: s.nodes log, p.toNat + len ≤ x.toNat ∨ x.toNat + 8 ≤ p.toNat := by
  intro x hx
  rcases List.mem_cons.mp hx with rfl | hx
  · have hbounds := hd.bounds h
    have hinside := hd.inside h
    have hout := head_outside hd.ready.placed hlog
    omega
  · obtain ⟨b, i, hfb, hig, hbb, hlog3, hlt, hi, rfl⟩ := node_place hd.ready hd.blocks hd.frags hx
    obtain ⟨e, he, h⟩ := h
    obtain ⟨off, -, hp, hfits, -, -, hkind⟩ := hd.blocks.placement hd.ready.high he h
    obtain ⟨d, hd', huse', rfl⟩ := mem_fragBlocks.mp hfb
    have hnat := toNat_fragAddr hbb.1 hbb.2 hlt.le hi
    have hfrag := frag_lt hlt.le hi
    have hpow : 2 ^ 3 ≤ 2 ^ log := Nat.pow_le_pow_right (by omega) hlog3
    by_cases hed : e = d
    · subst hed
      rcases hkind with ⟨huse, -, -⟩ | ⟨log', j, huse, hoff, hlen, hfresh⟩
      · rw [huse] at huse'
        cases huse'
      · rw [huse] at huse'
        cases huse'
        have hne : j ≠ i := fun heq => hfresh (heq ▸ hig)
        rcases Nat.lt_or_gt_of_ne hne with hlt | hlt
        · have := Nat.mul_le_mul_right (2 ^ log) hlt
          rw [Nat.succ_mul] at this
          omega
        · have := Nat.mul_le_mul_right (2 ^ log) hlt
          rw [Nat.succ_mul] at this
          omega
    · have hmem := hd.blocks.tiled.mem he
      have hmem' := hd.blocks.tiled.mem hd'
      by_cases hlt : e.start < d.start + d.size ∧ d.start < e.start + e.size
      · exact absurd (hd.blocks.tiled.unique he hd' hlt.1 hlt.2) hed
      · omega

/-- A free fragment is no area. -/
theorem Describes.free_not_held (hb : b ∈ fragBlocks log s.clusters) (hi : i ∈ s.group b) :
    ¬ s.Holds (fragAddr b log i) len := by
  intro h
  obtain ⟨-, -, -, hlog, -⟩ := hd.blocks.frag_block hb
  have hbo : b ∈ s.order log := (hd.frags.listed log b).mpr ⟨hb, List.ne_nil_of_mem hi⟩
  have hmem : fragAddr b log i ∈ s.nodes log := mem_nodes.mpr ⟨b, hbo, i, hi, rfl⟩
  have hout := hd.cell_outside h hlog _ (List.mem_cons_of_mem _ hmem)
  have hsize := (hd.bounds h).2.2.2
  omega

/-- What lies behind the end of the heap is in none of the areas. -/
theorem Describes.keeps_beyond (h : Beyond s.lim m.mem mem') : Keeps s.Holds m.mem mem' := by
  intro p len hp a hlow hhigh
  have hbounds := hd.bounds hp
  exact h a (Or.inl (by omega))

theorem Describes.around (hs : s.clusters = A ++ c :: B) (h : Holding s.group (A ++ B) p len) :
    (p.toNat : Int) < 0x01b00000 + (c.start - 1) * 4096 ∨
      0x01b00000 + (c.start + c.size - 1) * 4096 ≤ (p.toNat : Int) := by
  obtain ⟨d, hd', h⟩ := h
  have hc : c ∈ s.clusters := by
    rw [hs]
    exact List.mem_append_right _ List.mem_cons_self
  have hmem : d ∈ s.clusters := by
    rw [hs]
    rcases List.mem_append.mp hd' with hmem | hmem
    · exact List.mem_append_left _ hmem
    · exact List.mem_append_right _ (List.mem_cons_of_mem _ hmem)
  refine hd.blocks.elsewhere hd.ready.high hc hmem (fun heq => ?_) h
  have htiled := hd.blocks.tiled
  rw [hs] at htiled
  exact htiled.start_ne hd' (congrArg Cluster.start heq)

end Heap

/-! ### What a change does to them -/

theorem holds_free (b n : Int) (gr : List Nat) : ¬ Cluster.Holds ⟨b, n, .free⟩ gr p len := id

theorem holds_large (b n : Int) (gr : List Nat) :
    Cluster.Holds ⟨b, n, .large⟩ gr p len ↔ p = blockAddr b ∧ len = (n * 4096).toNat := Iff.rfl

theorem Takes.holding (ht : Takes k lim cs b lim' cs') : Holding g cs' p len ↔
    Holding g cs p len ∨ p = blockAddr b ∧ len = (k * 4096).toNat := by
  cases ht with
  | split A B b n hfits =>
    have hleft : ¬ Holding g (leftover b n k) p len := by
      rw [leftover]
      split <;> simp [Holding, Cluster.Holds]
    simp only [holding_append, holding_cons, hleft, holds_free, false_or]
    change _ ∨ (p = _ ∧ len = _) ∨ _ ↔ _
    tauto
  | grow A b n hn hend hfits =>
    simp only [holding_append, holding_cons, holding_nil, holds_free, or_false]
    rfl
  | fresh cs hfits =>
    simp only [holding_append, holding_cons, holding_nil, or_false]
    rfl

theorem Joined.holding (hj : Joined A b n B A' b' n' B') :
    Holding g (A' ++ ⟨b', n', .free⟩ :: B') p len ↔ Holding g (A ++ B) p len := by
  have hA : Holding g A p len ↔ Holding g A' p len := by
    rcases hj.before with rfl | ⟨rfl, -, -⟩
    · simp only [holding_append, holding_cons, holding_nil, holds_free, or_false]
    · exact Iff.rfl
  have hB : Holding g B p len ↔ Holding g B' p len := by
    rcases hj.behind with rfl | ⟨rfl, -, -⟩
    · simp only [holding_cons, holds_free, false_or]
    · exact Iff.rfl
  rw [holding_append, holding_append, holding_cons, hA, hB]
  simp only [holds_free, false_or]

section Heap

variable (hd : Describes m s)
include hd

/-- A large area, and the areas elsewhere. -/
theorem Describes.other_large (hs : s.clusters = A ++ ⟨b, n, .large⟩ :: B) :
    Holding s.group (A ++ B) p len ↔ s.Holds p len ∧ p ≠ blockAddr b := by
  rw [Shape.split_holds hs]
  have hblocks := hd.blocks
  rw [hs] at hblocks
  obtain ⟨hA, hpos, hB⟩ := hblocks.parts
  have hlow := hA.le
  have hend := hB.le
  have hhigh := hd.ready.high
  have hnat := toNat_blockAddr (b := b) (by omega) (by omega)
  constructor
  · intro h
    refine ⟨Or.inl h, fun heq => ?_⟩
    have hout := hd.around hs h
    rw [heq] at hout
    dsimp only at hout
    omega
  · rintro ⟨h | h, hne⟩
    · exact h
    · exact absurd h.1 hne

/-- Blocks that are taken were no area. -/
theorem Describes.taken_fresh (ht : Takes k s.lim s.clusters b lim' cs') :
    ¬ s.Holds (blockAddr b) len := by
  have hlow := hd.ready.low
  have hhigh := hd.ready.high
  have hfree : ∀ {A B : List Cluster} {b n : Int}, s.clusters = A ++ ⟨b, n, .free⟩ :: B →
      ¬ s.Holds (blockAddr b) len := by
    intro A B b n hs h
    have hblocks := hd.blocks
    rw [hs] at hblocks
    obtain ⟨hA, hpos, hB⟩ := hblocks.parts
    have hbegin := hA.le
    have hend := hB.le
    have hnat := toNat_blockAddr (b := b) (by omega) (by omega)
    have hout := hd.around hs (((Shape.split_holds hs).mp h).resolve_right id)
    dsimp only at hout
    omega
  generalize hcs : s.clusters = cs at ht
  cases ht with
  | split A B b n hfits => exact hfree hcs
  | grow A b n hn hend hfits => exact hfree hcs
  | fresh cs hfits =>
    intro h
    have hbounds := hd.bounds h
    omega

end Heap

/-! ### Fragments of one block -/

section Block

variable (hd : Describes m s) (hb : b ∈ fragBlocks log s.clusters) (hi : i < 2 ^ (12 - log))
  {gr : List Nat} {o : List Int}
include hd hb hi

omit hi in
theorem Describes.withGroup_holds (gr : List Nat) (o : List Int) (p : UInt32) (len : Nat) :
    ∃ A B, s.clusters = A ++ ⟨b, 1, .frag log⟩ :: B ∧
      ((s.withGroup b gr log o).Holds p len ↔ Holding s.group (A ++ B) p len ∨
        ∃ i < 2 ^ (12 - log), i ∉ gr ∧ p = fragAddr b log i ∧ len = 2 ^ log) := by
  obtain ⟨⟨b, n, use⟩, hc, rfl, rfl⟩ := mem_fragBlocks.mp hb
  obtain ⟨A, B, hs⟩ := List.append_of_mem hc
  obtain rfl : n = 1 := (hd.blocks.entries _ hc).1
  refine ⟨A, B, hs, ?_⟩
  rw [Shape.split_holds (s := s.withGroup b gr log o) hs, Cluster.Holds, group_withGroup]
  refine or_congr_left (holding_congr fun c hc' => ?_)
  have htiled := hd.blocks.tiled
  rw [hs] at htiled
  rw [Shape.withGroup]
  exact Function.update_of_ne (htiled.start_ne hc') _ _

/-- A fragment is no longer free. -/
theorem Describes.take_fragment (hgr : ∀ j, j ∉ gr ↔ j ∉ s.group b ∨ j = i) :
    (s.withGroup b gr log o).Holds p len ↔
      s.Holds p len ∨ p = fragAddr b log i ∧ len = 2 ^ log := by
  obtain ⟨A, B, hs, hafter⟩ := hd.withGroup_holds hb gr o p len
  rw [hafter, Shape.split_holds hs, or_assoc]
  refine or_congr_right ⟨?_, ?_⟩
  · rintro ⟨j, hj, hfree, hplace⟩
    rcases (hgr j).mp hfree with hfree | rfl
    · exact Or.inl ⟨j, hj, hfree, hplace⟩
    · exact Or.inr hplace
  · rintro (⟨j, hj, hfree, hplace⟩ | hplace)
    · exact ⟨j, hj, (hgr j).mpr (Or.inl hfree), hplace⟩
    · exact ⟨i, hi, (hgr i).mpr (Or.inr rfl), hplace⟩

/-- A fragment is free again. -/
theorem Describes.give_fragment (hgr : ∀ j, j ∈ gr ↔ j ∈ s.group b ∨ j = i) :
    (s.withGroup b gr log o).Holds p len ↔ s.Holds p len ∧ p ≠ fragAddr b log i := by
  obtain ⟨hlow, hhigh, hlog3, hlog, -⟩ := hd.blocks.frag_block hb
  have hlim := hd.ready.high
  obtain ⟨A, B, hs, hafter⟩ := hd.withGroup_holds hb gr o p len
  rw [hafter, Shape.split_holds hs]
  have hnat := toNat_fragAddr (by omega) (by omega) hlog.le hi (b := b)
  have hlt := frag_lt hlog.le hi
  have hpos := Nat.two_pow_pos log
  constructor
  · rintro (h | ⟨j, hj, hfree, rfl, rfl⟩)
    · refine ⟨Or.inl h, fun heq => ?_⟩
      have hout := hd.around hs h
      rw [heq] at hout
      dsimp only at hout
      omega
    · obtain ⟨hfree, hne⟩ := not_or.mp fun hor => hfree ((hgr j).mpr hor)
      refine ⟨Or.inr ⟨j, hj, hfree, rfl, rfl⟩, fun heq => hne ?_⟩
      have hplace := (fragAddr_inj (by omega) (by omega) hlog.le hlog.le hj hi heq).2
      exact Nat.eq_of_mul_eq_mul_right hpos hplace
  · rintro ⟨h | ⟨j, hj, hfree, rfl, rfl⟩, hne⟩
    · exact Or.inl h
    · refine Or.inr ⟨j, hj, fun hmem => ?_, rfl, rfl⟩
      rcases (hgr j).mp hmem with hmem | rfl
      · exact hfree hmem
      · exact hne rfl

end Block

end Malloc
