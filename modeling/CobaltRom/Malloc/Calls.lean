import CobaltRom.Malloc.Areas

/-! The calls: what each leaves of the heap, of the areas and of what is in them. -/
namespace Malloc
open DoubleLink Tiling Hoare

variable {m m' m₁ : Machine} {s s' s₁ : Shape} {lim b n : Int} {log log' i j fuel : Nat}
  {A B : List Cluster} {p q size : UInt32} {len k : Nat} {gr : List Nat} {o : List Int}

/-! ### The lists of fragments -/

/-- `sbrk` has not warned in between. -/
def Silent (m m' : Machine) : Prop := m'.warned = m.warned

instance : Std.Refl Silent := ⟨fun _ => rfl⟩

instance : IsTrans Machine Silent := ⟨fun _ _ _ h h' => Eq.trans h' h⟩

theorem modify_silent {f : Machine → Machine} (hf : ∀ m, (f m).warned = m.warned) :
    Hoare.Keeps Silent (modify f) := by
  intro m a m' hrun
  cases hrun
  exact hf m

theorem unlinkFragment_silent (p : UInt32) : Hoare.Keeps Silent (unlinkFragment p) :=
  .bind (modify_silent fun _ => rfl) fun _ => .bind .get fun _ =>
    .ite (fun _ => modify_silent fun _ => rfl) fun _ => .pure _

theorem countTaken_silent (log : Nat) (p : UInt32) : Hoare.Keeps Silent (countTaken log p) :=
  .bind .get fun _ => .bind (modify_silent fun _ => rfl) fun _ => .bind .get fun _ =>
    .ite (fun _ => modify_silent fun _ => rfl) fun _ => .pure _

theorem popFragment_silent (log : Nat) (p : UInt32) : Hoare.Keeps Silent (popFragment log p) :=
  .bind (unlinkFragment_silent p) fun _ => .bind (countTaken_silent log p) fun _ => .pure _

theorem pushFragment_silent (log : Nat) (p : UInt32) : Hoare.Keeps Silent (pushFragment log p) :=
  .bind (modify_silent fun _ => rfl) fun _ => .bind (modify_silent fun _ => rfl) fun _ =>
    .bind (modify_silent fun _ => rfl) fun _ => .bind .get fun _ =>
      .ite (fun _ => modify_silent fun _ => rfl) fun _ => .pure _

theorem linkFragments_silent (log : Nat) (p : UInt32) (n i : Nat) :
    Hoare.Keeps Silent (linkFragments log p n i) := by
  induction n generalizing i with
  | zero => exact .pure _
  | succ n ih => exact .bind (pushFragment_silent log _) fun _ => ih (i + 1)

theorem dropFragments_silent (log : Nat) (p : UInt32) : Hoare.Keeps Silent (dropFragments log p) :=
  .bind .get fun _ => .bind (modify_silent fun _ => rfl) fun _ =>
    .ite (fun _ => modify_silent fun _ => rfl) fun _ => .pure _

theorem linkAfter_silent (p q : UInt32) : Hoare.Keeps Silent (linkAfter p q) :=
  .bind (modify_silent fun _ => rfl) fun _ => .bind (modify_silent fun _ => rfl) fun _ =>
    .bind (modify_silent fun _ => rfl) fun _ => .bind .get fun _ =>
      .ite (fun _ => modify_silent fun _ => rfl) fun _ => .pure _

/-! ### Between two calls -/

/-- The heap between two calls. -/
structure Sound (m : Machine) (s : Shape) : Prop where
  describes : Describes m s
  limit : m.heaplimit = s.lim ∨ m.heaplimit = 0 ∧ s.lim = 4
  /-- A block whose fragments are all free is the only one of its size. -/
  sole : ∀ log, ∀ b ∈ fragBlocks log s.clusters, (s.group b).length = 2 ^ (12 - log) →
    (fragBlocks log s.clusters).length = 1

theorem Sound.frag_size (h : Sound m s) (hb : b ∈ fragBlocks log s.clusters) :
    4 ≤ b ∧ b < 1024 ∧ 3 ≤ log ∧ log < 12 := by
  obtain ⟨hlow, hhigh, hlog3, hlog, -⟩ := h.describes.blocks.frag_block hb
  have hlim := h.describes.ready.high
  exact ⟨hlow, by omega, hlog3, hlog⟩

/-- The full blocks are as few as before where one block has got more fragments in use. -/
theorem sole_withGroup (h : Sound m s) (hb : b ∈ fragBlocks log s.clusters)
    (hfull : gr.length = 2 ^ (12 - log) → (fragBlocks log s.clusters).length = 1) :
    ∀ log', ∀ x ∈ fragBlocks log' (s.withGroup b gr log o).clusters,
      ((s.withGroup b gr log o).group x).length = 2 ^ (12 - log') →
        (fragBlocks log' (s.withGroup b gr log o).clusters).length = 1 := by
  intro log' x hx hlen
  change x ∈ fragBlocks log' s.clusters at hx
  by_cases hxb : x = b
  · subst hxb
    obtain rfl := h.describes.blocks.one_size hx hb
    rw [group_withGroup] at hlen
    exact hfull hlen
  · rw [Shape.withGroup] at hlen
    dsimp only at hlen
    rw [Function.update_of_ne hxb] at hlen
    exact h.sole log' x hx hlen

theorem Sound.withGroup (h : Sound m s) (hd : Describes m' (s.withGroup b gr log o))
    (hlimit : m'.heaplimit = m.heaplimit) (hb : b ∈ fragBlocks log s.clusters)
    (hfull : gr.length = 2 ^ (12 - log) → (fragBlocks log s.clusters).length = 1) :
    Sound m' (s.withGroup b gr log o) :=
  ⟨hd, by rw [hlimit]; exact h.limit, sole_withGroup h hb hfull⟩

/-- A block has no more free fragments than it has fragments. -/
theorem Sound.group_le (h : Sound m s) (hb : b ∈ fragBlocks log s.clusters) :
    (s.group b).length ≤ 2 ^ (12 - log) := by
  have hsub : s.group b ⊆ List.range (2 ^ (12 - log)) := fun i hi =>
    List.mem_range.mpr (h.describes.frags.inside log b hb i hi)
  have := ((h.describes.frags.groups b).subperm hsub).length_le
  rwa [List.length_range] at this

/-- Where all fragments but one are free, only that one is in use. -/
theorem Sound.last_used {i' : Nat} (h : Sound m s) (hb : b ∈ fragBlocks log s.clusters)
    (hcount : (s.group b).length + 1 = 2 ^ (12 - log)) (hi : i < 2 ^ (12 - log))
    (hused : i ∉ s.group b) (hi' : i' < 2 ^ (12 - log)) (hused' : i' ∉ s.group b) : i' = i := by
  by_contra hne
  have hnodup : (i' :: i :: s.group b).Nodup := by
    refine List.nodup_cons.mpr ⟨fun hmem => ?_,
      List.nodup_cons.mpr ⟨hused, h.describes.frags.groups b⟩⟩
    exact (List.mem_cons.mp hmem).elim hne hused'
  have hsub : i' :: i :: s.group b ⊆ List.range (2 ^ (12 - log)) := by
    intro e he
    refine List.mem_range.mpr ?_
    rcases List.mem_cons.mp he with rfl | he
    · exact hi'
    · rcases List.mem_cons.mp he with rfl | he
      · exact hi
      · exact h.describes.frags.inside log b hb e he
  have hle := (hnodup.subperm hsub).length_le
  rw [List.length_range, List.length_cons, List.length_cons] at hle
  omega

/-- One block of several of its size is no longer broken up. -/
theorem Sound.withUse (h : Sound m s) (hs : s.clusters = A ++ ⟨b, 1, .frag log⟩ :: B)
    (hd : Describes m' (s.withUse A b .large B [] log o)) (hlimit : m'.heaplimit = m.heaplimit)
    (hmany : (fragBlocks log s.clusters).length ≠ 1) :
    Sound m' (s.withUse A b .large B [] log o) := by
  have htiled := h.describes.blocks.tiled
  rw [hs] at htiled
  refine ⟨hd, ?_, ?_⟩
  · rw [hlimit]
    exact h.limit
  · intro log' x hx hlen
    change x ∈ fragBlocks log' (A ++ ⟨b, 1, .large⟩ :: B) at hx
    change (fragBlocks log' (A ++ ⟨b, 1, .large⟩ :: B)).length = 1
    rw [fragBlocks_around, if_neg (by simp)] at hx ⊢
    have hxs : x ∈ fragBlocks log' s.clusters := by
      rw [hs, fragBlocks_around]
      rcases List.mem_append.mp hx with hx | hx
      · exact List.mem_append_left _ hx
      · exact List.mem_append_right _ (List.mem_append_right _ hx)
    have hxb : x ≠ b := by
      rw [List.nil_append, ← fragBlocks_append] at hx
      obtain ⟨c, hc, -, rfl⟩ := mem_fragBlocks.mp hx
      exact htiled.start_ne hc
    have hgroup : (s.withUse A b .large B [] log o).group x = s.group x := by
      simp [Shape.withUse, hxb]
    rw [hgroup] at hlen
    have hone := h.sole log' x hxs hlen
    by_cases hll : log' = log
    · subst hll
      exact absurd hone hmany
    · rw [hs, fragBlocks_around, if_neg fun heq => hll (Use.frag.inj heq).symm] at hone
      exact hone

/-! ### Giving back -/

section Free

variable (h : Sound m s) (hfuel : 1024 < fuel)
include h hfuel

theorem Sound.freeBlocks (hs : s.clusters = A ++ ⟨b, n, .large⟩ :: B) :
    ∃ m' s', (Malloc.freeBlocks fuel (blockAddr b)).run m = some ((), m') ∧ Sound m' s' ∧
      (∀ q k, s'.Holds q k ↔ Holding s.group (A ++ B) q k) ∧ m'.mem = m.mem ∧
      m'.warned = m.warned := by
  have hd := h.describes
  have hblocks := hd.blocks
  rw [hs] at hblocks
  obtain ⟨hA, hpos, hB⟩ := hblocks.parts
  have hlow := hA.le
  have hend := hB.le
  have hlimit : m.heaplimit = s.lim := h.limit.resolve_right fun hz => by omega
  obtain ⟨m', A', b', n', B', hrun, hj, hmem, hw, hcases⟩ :=
    hd.freeBlocks hs (Or.inl hlimit) hfuel
  have hfrag := fragBlocks_joined hj
  rcases hcases with ⟨hlim', -, hd'⟩ | ⟨rfl, -, hlim', hd'⟩
  · refine ⟨m', _, hrun, ⟨hd', Or.inl (hlim'.trans hlimit), ?_⟩, fun q k => hj.holding, hmem, hw⟩
    intro log' x hx hlen
    dsimp only at hx hlen ⊢
    rw [hfrag, ← hs] at hx ⊢
    exact h.sole log' x hx hlen
  · refine ⟨m', _, hrun, ⟨hd', Or.inl hlim', ?_⟩, fun q k => ?_, hmem, hw⟩
    · have hkept : ∀ log', fragBlocks log' A' = fragBlocks log' s.clusters := fun log' => by
        rw [hs, ← hfrag, fragBlocks_append]
        exact (List.append_nil _).symm
      intro log' x hx hlen
      dsimp only at hx hlen ⊢
      rw [hkept] at hx ⊢
      exact h.sole log' x hx hlen
    · rw [← hj.holding (g := s.group), holding_append, holding_cons]
      simp only [holds_free, holding_nil, or_false]
      rfl

/-- A block that is given back with its last used fragment. -/
theorem Sound.freeWhole (hs : s.clusters = A ++ ⟨b, 1, .frag log⟩ :: B) (hi : i < 2 ^ (12 - log))
    (hfresh : i ∉ s.group b) (hg : s.group b = j :: gr) (hcount : gr.length + 2 = 2 ^ (12 - log))
    (hmany : (fragBlocks log s.clusters).length ≠ 1) :
    ∃ m₁ m' s', (dropFragments log (fragAddr b log j)).run { m with
        fragblocks := Function.update m.fragblocks log (m.fragblocks log - 1) } = some ((), m₁) ∧
      m₁.heapbase = m.heapbase ∧
      (Malloc.freeBlocks fuel (blockAddr b)).run ((m₁.setType b 0).setBusySize b 1) =
      some ((), m') ∧
      Sound m' s' ∧ (∀ q k, s'.Holds q k ↔ s.Holds q k ∧ q ≠ fragAddr b log i) ∧
      Keeps s'.Holds m.mem m'.mem ∧ m'.warned = m.warned := by
  have hd := h.describes
  have hb : b ∈ fragBlocks log s.clusters := by
    rw [hs, fragBlocks_around, if_pos rfl]
    exact List.mem_append_right _ List.mem_cons_self
  obtain ⟨hlow, hhigh, hlog3, hlog⟩ := h.frag_size hb
  have htiled := hd.blocks.tiled
  rw [hs] at htiled
  obtain ⟨m₁, o, hdrop, hbase, hlimit, hd₁, hcells⟩ := dropFragments_describes hd hlog hs hg hcount
  have hsound : Sound ((m₁.setType b 0).setBusySize b 1) (s.withUse A b .large B [] log o) :=
    h.withUse hs hd₁ hlimit hmany
  obtain ⟨m', s', hrun, hsound', hholds, hmem, hw⟩ :=
    hsound.freeBlocks hfuel (A := A) (B := B) (n := 1) rfl
  have hothers : ∀ q k, Holding (s.withUse A b .large B [] log o).group (A ++ B) q k ↔
      Holding s.group (A ++ B) q k := by
    intro q k
    refine holding_congr fun c hc => ?_
    have hne : c.start ≠ b := htiled.start_ne hc
    simp [Shape.withUse, hne]
  have hholds' : ∀ q k, s'.Holds q k ↔ s.Holds q k ∧ q ≠ fragAddr b log i := by
    intro q k
    rw [hholds, hothers, Shape.split_holds hs]
    have hnat := toNat_fragAddr (by omega) (by omega) hlog.le hi (b := b)
    have hlt := frag_lt hlog.le hi
    have hpos := Nat.two_pow_pos log
    constructor
    · intro hq
      refine ⟨Or.inl hq, fun heq => ?_⟩
      have hout := hd.around hs hq
      rw [heq] at hout
      dsimp only at hout
      omega
    · rintro ⟨hq | ⟨i', hi', hfree, rfl, rfl⟩, hne⟩
      · exact hq
      · have hlast := h.last_used hb (by rw [hg, List.length_cons]; omega) hi hfresh hi' hfree
        exact absurd (by rw [hlast]) hne
  have hw₁ : Silent { m with
      fragblocks := Function.update m.fragblocks log (m.fragblocks log - 1) } m₁ :=
    dropFragments_silent log _ _ _ _ hdrop
  refine ⟨m₁, m', s', hdrop, hbase, hrun, hsound', hholds', ?_, hw.trans hw₁⟩
  rw [hmem]
  exact (hcells.keeps fun p len hp => hd.cell_outside hp hlog).mono fun q k hq =>
    ((hholds' q k).mp hq).1

theorem Sound.freeFragment (hb : b ∈ fragBlocks log s.clusters) (hi : i < 2 ^ (12 - log))
    (hfresh : i ∉ s.group b) :
    ∃ m' s', (Malloc.freeFragment fuel (fragAddr b log i) b log).run m = some ((), m') ∧
      Sound m' s' ∧ (∀ q k, s'.Holds q k ↔ s.Holds q k ∧ q ≠ fragAddr b log i) ∧
      Keeps s'.Holds m.mem m'.mem ∧ m'.warned = m.warned := by
  have hd := h.describes
  have hbase := hd.ready.heapbase
  obtain ⟨hlow, hhigh, hlog3, hlog⟩ := h.frag_size hb
  obtain ⟨-, -, -, -, -, hnfree, hfirst⟩ := hd.blocks.frag_block hb
  have hpow : 1 < 2 ^ (12 - log) := Nat.one_lt_two_pow (by omega)
  have hle := h.group_le hb
  have hcounts := hd.frags.counts log
  -- a fragment in use overlaps no other area
  have hkeeps : ∀ {mem : Ram} {s' : Shape},
      (∀ q k, s'.Holds q k ↔ s.Holds q k ∧ q ≠ fragAddr b log i) →
      OnlyCells (fragAddr b log i :: m.fraghead log :: s.nodes log) m.mem mem →
      Keeps s'.Holds m.mem mem := by
    intro mem s' hholds hcells
    refine hcells.keeps fun p len hp c hc => ?_
    obtain ⟨hp, hne⟩ := (hholds p len).mp hp
    rcases List.mem_cons.mp hc with rfl | hc
    · have hx : s.Holds (fragAddr b log i) (2 ^ log) := by
        obtain ⟨d, hd', huse, rfl⟩ := mem_fragBlocks.mp hb
        refine ⟨d, hd', ?_⟩
        rw [Cluster.Holds, huse]
        exact ⟨i, hi, hfresh, rfl, rfl⟩
      have hapart := (hd.disjoint hp hx).resolve_left fun heq => hne heq.1
      have := (hd.bounds hx).2.2.2
      omega
    · exact hd.cell_outside hp hlog c hc
  rw [Malloc.freeFragment, run_get_bind]
  dsimp only
  rw [hnfree, fragment_count hlog.le, hcounts]
  split
  case isTrue hwhole =>
    cases hg : s.group b with
    | nil =>
      rw [hg, List.length_nil] at hwhole
      omega
    | cons j gr =>
      rw [first_address hbase hlog (hfirst j (by rw [hg]; rfl))]
      rw [hg, List.length_cons] at hwhole
      obtain ⟨⟨b, n, use⟩, hc, rfl, rfl⟩ := mem_fragBlocks.mp hb
      obtain ⟨A, B, hs⟩ := List.append_of_mem hc
      obtain rfl : n = 1 := (hd.blocks.entries _ hc).1
      obtain ⟨m₁, m', s', hdrop, hbase₁, hrun, hsound, hholds, hmem, hw⟩ :=
        h.freeWhole hfuel hs hi hfresh hg (by omega) (by omega)
      refine ⟨m', s', ?_, hsound, hholds, hmem, hw⟩
      have haddress : ((m₁.setType b 0).setBusySize b 1).address b = blockAddr b :=
        address_eq (hbase₁.trans hbase) b
      rw [run_modify_bind, hcounts, ← hcounts, run_bind_some hdrop, run_modify_bind,
        run_modify_bind,
        run_get_bind, haddress]
      exact hrun
  case isFalse hpart =>
    split
    case isTrue hsome =>
      cases hg : s.group b with
      | nil =>
        rw [hg] at hsome
        exact absurd rfl hsome
      | cons j gr =>
        rw [first_address hbase hlog (hfirst j (by rw [hg]; rfl))]
        obtain ⟨m', hrun, hd', hlimit, hcells⟩ := linkAfter_describes hd hlog hb hi hfresh hg
        have hgr : ∀ j', j' ∈ j :: i :: gr ↔ j' ∈ s.group b ∨ j' = i := by
          intro j'
          rw [hg, List.mem_cons, List.mem_cons, List.mem_cons]
          tauto
        have hholds : ∀ q k, (s.withGroup b (j :: i :: gr) log (s.order log)).Holds q k ↔
            s.Holds q k ∧ q ≠ fragAddr b log i := fun q k => hd.give_fragment hb hi hgr
        have hsilent : Hoare.Keeps Silent (do
            linkAfter (fragAddr b log i) (fragAddr b log j)
            modify fun m => m.setNfree b ((m.heapinfo b).nfree + 1) : HeapM Unit) :=
          .bind (linkAfter_silent _ _) fun _ => modify_silent fun _ => rfl
        refine ⟨m', _, hrun, h.withGroup hd' hlimit hb fun hfull => ?_, hholds,
          hkeeps hholds hcells, hsilent _ _ _ hrun⟩
        have hpos := List.length_pos_of_mem hb
        rw [hg, List.length_cons] at hpart
        rw [List.length_cons, List.length_cons] at hfull
        by_contra hmany
        exact hpart ⟨by omega, by omega⟩
    case isFalse hnone =>
      have hg : s.group b = [] := List.eq_nil_of_length_eq_zero (by omega)
      obtain ⟨m', hrun, hd', hlimit, hcells⟩ := pushFragment_describes hd hlog hb hi hfresh hg
      have hgr : ∀ j', j' ∈ [i] ↔ j' ∈ s.group b ∨ j' = i := by
        intro j'
        rw [hg]
        simp
      have hholds : ∀ q k, (s.withGroup b [i] log (b :: s.order log)).Holds q k ↔
          s.Holds q k ∧ q ≠ fragAddr b log i := fun q k => hd.give_fragment hb hi hgr
      have hsilent : Hoare.Keeps Silent (do
          modify fun m => m.setNfree b 1
          modify fun m => m.setFirst b
            ((fragAddr b log i % blocksize) >>> (.ofNat log : UInt32)).toNat
          pushFragment log (fragAddr b log i) : HeapM Unit) :=
        .bind (modify_silent fun _ => rfl) fun _ => .bind (modify_silent fun _ => rfl) fun _ =>
          pushFragment_silent _ _
      refine ⟨m', _, hrun, h.withGroup hd' hlimit hb fun hfull => ?_, hholds,
        hkeeps hholds hcells, hsilent _ _ _ hrun⟩
      rw [List.length_singleton] at hfull
      omega

omit h hfuel in
theorem Describes.free_large (hd : Describes m s) (hc : ⟨b, n, .large⟩ ∈ s.clusters) (fuel : Nat) :
    (Malloc.free fuel (blockAddr b)).run m = (Malloc.freeBlocks fuel (blockAddr b)).run m := by
  have hmem := hd.blocks.tiled.mem hc
  have hentry := hd.blocks.entries _ hc
  have hhigh := hd.ready.high
  dsimp only at hmem
  rw [Malloc.free, if_neg (blockAddr_ne_zero (by omega) (by omega)), run_get_bind]
  dsimp only
  rw [block_blockAddr hd.ready.heapbase (by omega) (by omega), if_pos hentry.1]

/-- `free` of an area: the others stay, with what is in them. -/
theorem Sound.free (hp : s.Holds p len) :
    ∃ m' s', (Malloc.free fuel p).run m = some ((), m') ∧ Sound m' s' ∧
      (∀ q k, s'.Holds q k ↔ s.Holds q k ∧ q ≠ p) ∧ Keeps s'.Holds m.mem m'.mem ∧
      m'.warned = m.warned := by
  have hd := h.describes
  have hr := hd.ready
  have hbounds := hd.bounds hp
  have hne : p ≠ 0 := by
    rintro rfl
    exact absurd hbounds.1 (by decide)
  obtain ⟨⟨b, n, use⟩, hc, hp⟩ := hp
  have hmem := hd.blocks.tiled.mem hc
  have hentry := hd.blocks.entries _ hc
  have hhigh := hr.high
  dsimp only at hmem
  cases use with
  | free => exact hp.elim
  | large =>
    obtain ⟨rfl, -⟩ := hp
    obtain ⟨A, B, hs⟩ := List.append_of_mem hc
    obtain ⟨m', s', hrun, hsound, hholds, hmem', hw⟩ := h.freeBlocks hfuel hs
    rw [hd.free_large hc]
    refine ⟨m', s', hrun, hsound, fun q k => (hholds q k).trans (hd.other_large hs), ?_, hw⟩
    rw [hmem']
    exact Keeps.refl _ _
  | frag log =>
    obtain ⟨i, hi, hfresh, rfl, -⟩ := hp
    obtain ⟨-, hlog3, hlog, htype, -⟩ := hentry
    have hb : b ∈ fragBlocks log s.clusters := mem_fragBlocks.mpr ⟨_, hc, rfl, rfl⟩
    dsimp only at htype hi hne ⊢
    rw [Malloc.free, if_neg hne, run_get_bind]
    dsimp only
    rw [block_fragAddr hr.heapbase (by omega) hlog.le hi, htype, if_neg (by omega)]
    exact h.freeFragment hfuel hb hi hfresh

end Free

end Malloc
