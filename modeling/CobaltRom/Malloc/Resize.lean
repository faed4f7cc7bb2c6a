import CobaltRom.Malloc.Allocate

/-! `realloc`: what an area holds goes with it, unless the heap is out of space. -/
namespace Malloc
open DoubleLink Tiling Hoare Memfuncs

variable {m m' m₁ : Machine} {s s' s₁ : Shape} {k lim b b' n n' : Int} {log i j fuel : Nat}
  {A B A' B' : List Cluster} {p q size dest src : UInt32} {len : Nat} {mem mem' : Ram}

/-! ### Copies -/

/-- The `len` bytes at `dest` are those that were at `src`, and nothing else has changed. -/
structure Copied (dest src : UInt32) (len : Nat) (mem mem' : Ram) : Prop where
  same : ∀ i < len, mem' (dest + .ofNat i) = mem (src + .ofNat i)
  other : ∀ a : UInt32, ¬ (dest.toNat ≤ a.toNat ∧ a.toNat < dest.toNat + len) → mem' a = mem a

section Copies

variable (hdest : dest.toNat + len ≤ 2 ^ 32) (hsrc : src.toNat + len ≤ 2 ^ 32)
include hdest hsrc

theorem copied_up (h : dest.toNat < src.toNat ∨ src.toNat + len ≤ dest.toNat) :
    Copied dest src len mem (mem.copy dest src len) := by
  refine ⟨fun i hi => Ram.copy_disjoint (by omega) hi fun k hk heq => ?_, fun a ha =>
    Ram.copy_other fun k hk => outside_ne hdest ha hk⟩
  have hnat := congrArg UInt32.toNat heq
  rw [toNat_byte (by omega), toNat_byte (by omega)] at hnat
  omega

theorem copied_down (h : src.toNat ≤ dest.toNat) :
    Copied dest src len mem (mem.copyDown dest src len) := by
  refine ⟨fun i hi => Ram.copyDown_disjoint (by omega) hi fun k hlow hhigh heq => ?_, fun a ha =>
    Ram.copyDown_other fun k hk => outside_ne hdest ha hk⟩
  have hnat := congrArg UInt32.toNat heq
  rw [toNat_byte (by omega), toNat_byte (by omega)] at hnat
  omega

end Copies

theorem copied_memcpy {len : UInt32} (hdest : dest.toNat + len.toNat ≤ 2 ^ 32)
    (hsrc : src.toNat + len.toNat ≤ 2 ^ 32)
    (h : dest.toNat + len.toNat ≤ src.toNat ∨ src.toNat + len.toNat ≤ dest.toNat) (hlen : len ≠ 0) :
    Copied dest src len.toNat mem (memcpy dest src len mem).2 := by
  have hpos : len.toNat ≠ 0 := fun hz => hlen (UInt32.toNat_inj.mp hz)
  rw [memcpy, repMovsb_eq_copy]
  exact copied_up hdest hsrc (by omega)

theorem copied_memmove {len : UInt32} (hdest : dest.toNat + len.toNat ≤ 2 ^ 32)
    (hsrc : src.toNat + len.toNat ≤ 2 ^ 32) :
    Copied dest src len.toNat mem (memmove dest src len mem).2 := by
  rw [memmove_snd]
  split
  case isTrue hlt => exact copied_up hdest hsrc (Or.inl (UInt32.lt_iff_toNat_lt.mp hlt))
  case isFalse hge =>
    exact copied_down hdest hsrc (UInt32.le_iff_toNat_le.mp (UInt32.not_lt.mp hge))

/-! ### Changes that are not calls -/

theorem Describes.withLimit (hd : Describes m s) (limit : Int) :
    Describes { m with heaplimit := limit } s := by
  have hr := hd.ready
  exact ⟨⟨hr.initialized, hr.heapbase, hr.heapsize, hr.highWater, hr.placed, hr.low, hr.high⟩,
    hd.blocks, ⟨hd.frags.inside, hd.frags.groups, hd.frags.orders, hd.frags.listed, hd.frags.lists,
      hd.frags.counts⟩, hd.apart, hd.index⟩

/-- What is written to an area leaves the heap as it is. -/
theorem Describes.withMem (hd : Describes m s) (hp : s.Holds p len)
    (h : ∀ a : UInt32, ¬ (p.toNat ≤ a.toNat ∧ a.toNat < p.toNat + len) → mem a = m.mem a) :
    Describes { m with mem := mem } s := by
  refine ⟨hd.ready.withMem mem, hd.blocks, ?_, hd.apart, hd.index⟩
  refine hd.frags.kept (fun log hlog c hc a hlow hhigh => h a ?_)
    (fun log hlog => list_cells hd.ready hd.blocks hd.frags hlog) hd.ready.placed rfl rfl
    (fun _ => rfl) rfl rfl
  have := hd.cell_outside hp hlog c hc
  omega

theorem Sound.withMem (h : Sound m s) (hp : s.Holds p len)
    (hmem : ∀ a : UInt32, ¬ (p.toNat ≤ a.toNat ∧ a.toNat < p.toNat + len) → mem a = m.mem a) :
    Sound { m with mem := mem } s := ⟨h.describes.withMem hp hmem, h.limit, h.sole⟩

/-- An area of whole blocks becomes two. -/
theorem Describes.splitLarge (hd : Describes m s) (hs : s.clusters = A ++ ⟨b, n, .large⟩ :: B)
    (hk : 0 < k) (hn : k < n) :
    Describes (((m.setType (b + k) 0).setBusySize (b + k) (n - k)).setBusySize b k)
      { s with clusters := A ++ ⟨b, k, .large⟩ :: ⟨b + k, n - k, .large⟩ :: B } := by
  have hblocks := hd.blocks
  have hapart := hd.apart
  have hindex := hd.index
  rw [hs] at hblocks hapart hindex
  obtain ⟨hA, hpos, hB⟩ := hblocks.parts
  have hlow := hA.le
  have htable : OnlyTable m (((m.setType (b + k) 0).setBusySize (b + k) (n - k)).setBusySize b k) :=
    (OnlyTable.refl m).setSize.setFreeNext.setFreeNext
  have hentry := hblocks.entries ⟨b, n, .large⟩ (List.mem_append_right _ List.mem_cons_self)
  have hout : ∀ x, ¬ (b ≤ x ∧ x < b + n) →
      (((m.setType (b + k) 0).setBusySize (b + k) (n - k)).setBusySize b k).heapinfo x =
        m.heapinfo x := by
    intro x hx
    rw [heapinfo_setFreeNext_ne _ (by omega), heapinfo_setFreeNext_ne _ (by omega),
      heapinfo_setSize_ne _ (by omega)]
  have hbb : b ≠ b + k := by omega
  refine ⟨hd.ready.only htable, ?_, ?_, ?_, ?_⟩
  · refine Blocks.splice A [⟨b, n, .large⟩] [⟨b, k, .large⟩, ⟨b + k, n - k, .large⟩] B b
      (b + n) hblocks
      hA ⟨rfl, hk, rfl, by dsimp only; omega, ?_⟩ hB ⟨?_, ?_, ?_⟩ (fun _ _ => rfl) ?_ ?_
    · change b + k + (n - k) = b + n
      omega
    · exact fun x hx => by rw [hout x hx]
    · exact fun x hx _ => by rw [hout x hx]
    · exact fun x hx _ => by rw [hout x hx]
    · intro c hc
      rcases List.mem_cons.mp hc with rfl | hc
      · refine ⟨?_, ?_⟩
        · simpa [hbb] using hentry.1
        · simp
      · obtain rfl := List.mem_singleton.mp hc
        refine ⟨?_, ?_⟩
        · simp
        · simp [hbb.symm]
    · have hmid := Blocks.middle A [⟨b, n, .large⟩] B hblocks
      have hlast := (between hA hpos hB).1
      have hfirst : ¬ (b ≤ (frees B).headD 0 ∧ (frees B).headD 0 < b + n) := by
        rcases first_mem B with h0 | hmem
        · omega
        · have := (frees_bounds hB hmem).1
          omega
      refine hmid.congr (fun x hx => ?_) fun x hx _ => ?_
      · obtain rfl := List.mem_singleton.mp hx
        rw [hout _ (by omega)]
      · obtain rfl := List.mem_singleton.mp hx
        rw [hout _ hfirst]
  · refine hd.frags.kept (fun log _ c _ a _ _ => by rw [htable.mem])
      (fun log hlog => list_cells hd.ready hd.blocks hd.frags hlog) hd.ready.placed htable.fragheads
      htable.fragblocks (fun log => ?_) rfl rfl
    dsimp only
    rw [hs, fragBlocks_append, fragBlocks_append]
    rfl
  · obtain ⟨hA', hB'⟩ := (apart_busy (by simp)).mp hapart
    exact (apart_busy (by simp)).mpr
      ⟨hA', (apart_busy (A := []) (by simp)).mpr ⟨List.isChain_nil, hB'⟩⟩
  · change m.heapindex ∈ 0 :: frees (A ++ ⟨b, k, .large⟩ :: ⟨b + k, n - k, .large⟩ :: B)
    rw [frees_append, frees_cons_large] at hindex
    rw [frees_append, frees_cons_large, frees_cons_large]
    exact hindex

/-! ### Taking back -/

/-- A large request is served from the cluster that the search begins with, if that will do. -/
theorem Sound.mallocHere (h : Sound m s) (hs : s.clusters = A ++ ⟨b, n, .free⟩ :: B)
    (hindex : m.heapindex = b) (hlimit : m.heaplimit = s.lim) (hk : 0 < k) (hn : k ≤ n)
    (hfuel : 1024 < fuel) :
    ∃ m', (Malloc.malloc fuel (UInt32.ofInt (k * 4096))).run m = some (blockAddr b, m') ∧
      Sound m' { s with clusters := A ++ ⟨b, k, .large⟩ :: (leftover b n k ++ B) } ∧
      m'.heaplimit = s.lim ∧ m'.heapindex = (frees (leftover b n k ++ B)).headD 0 ∧
      m'.mem = m.mem ∧ m'.warned = m.warned := by
  have hd := h.describes
  have hr := hd.ready
  have hblocks := hd.blocks
  have hapart := hd.apart
  rw [hs] at hblocks hapart
  obtain ⟨hA, hpos, hB⟩ := hblocks.parts
  have hlow := hA.le
  have hend := hB.le
  have hhigh := hr.high
  have hsize := toNat_ofInt (k := k * 4096) (by omega) (by omega)
  have hne : UInt32.ofInt (k * 4096) ≠ 0 := by
    intro hz
    rw [hz] at hsize
    change (0 : Int) = _ at hsize
    omega
  have hround : roundedSize (UInt32.ofInt (k * 4096)) = UInt32.ofInt (k * 4096) := by
    rw [roundedSize, if_neg]
    intro hlt
    have : (UInt32.ofInt (k * 4096)).toNat < 8 := UInt32.lt_iff_toNat_lt.mp hlt
    omega
  have hblockify : blockify (UInt32.ofInt (k * 4096)) = k := by
    rw [blockify_eq (by omega)]
    omega
  obtain ⟨turns, rfl⟩ : ∃ t, fuel = t + 1 := ⟨fuel - 1, by omega⟩
  obtain ⟨m', htake, htable, hindex', hb'⟩ := hblocks.takeBlocks hk hn
  have hsearch : (search (turns + 1) k m.heapindex (turns + 1) m.heapindex).run m =
      some (.cluster m.heapindex, m) :=
    search_here (by rw [hindex, hblocks.free_cluster.1]; omega)
  rw [address_eq hr.heapbase] at htake
  have ht : Takes k s.lim s.clusters b s.lim (A ++ ⟨b, k, .large⟩ :: (leftover b n k ++ B)) := by
    rw [hs]
    exact .split A B b n hn
  refine ⟨m', ?_, h.taken ⟨hr.only htable, hb', ?_, ?_, ?_⟩ ht ?_, ?_, hindex', htable.mem,
    htable.warned⟩
  · rw [malloc_large hr.initialized hne (by rw [hround]; omega), hround, Malloc.mallocBlocks,
      run_get_bind, hblockify, run_bind_some hsearch]
    dsimp only
    rw [hindex]
    exact htake
  · refine hd.frags.kept (fun log _ c _ a _ _ => by rw [htable.mem])
      (fun log hlog => list_cells hr hd.blocks hd.frags hlog) hr.placed htable.fragheads
      htable.fragblocks (fun log => ?_) rfl rfl
    exact ht.fragBlocks log
  · exact ht.apart hd.apart
  · rw [hindex']
    change _ ∈ 0 :: frees (A ++ ⟨b, k, .large⟩ :: (leftover b n k ++ B))
    rw [frees_append, frees_cons_large]
    rcases first_mem (leftover b n k ++ B) with h0 | hmem
    · rw [h0]
      exact List.mem_cons_self
    · exact List.mem_cons_of_mem _ (List.mem_append_right _ hmem)
  · exact htable.heaplimit.trans hlimit
  · exact htable.heaplimit.trans hlimit

/-- `realloc` takes its blocks back after a failure; it comes to that only behind the warning. -/
theorem Sound.unfree (h : Sound m { s with clusters := A' ++ ⟨b', n', .free⟩ :: B' })
    (hj : Joined A b n B A' b' n' B') (hpos : 0 < n)
    (hA : Tiled Cluster.start Cluster.size 4 A b)
    (hB : Tiled Cluster.start Cluster.size (b + n) B s.lim) (hindex : m.heapindex = b')
    (hlimit : m.heaplimit = s.lim) (hfuel : 1024 < fuel) :
    ∃ m', (Malloc.unfree fuel b n).run m = some ((), m') ∧ m'.warned = m.warned := by
  have hends : b + n ≤ b' + n' := by
    rcases hj.behind with rfl | ⟨-, hends, -⟩
    · have : 0 < b' + n' - (b + n) := hB.2.1
      omega
    · omega
  rw [Malloc.unfree, run_get_bind, hindex]
  by_cases hbb : b' = b
  · subst hbb
    obtain ⟨m', hrun, -, -, -, -, hw⟩ := h.mallocHere rfl hindex hlimit hpos (by omega) hfuel
    rw [if_pos rfl, run_bind_some hrun]
    exact ⟨m', rfl, hw⟩
  · have hA' : A = A' ++ [⟨b', b - b', .free⟩] :=
      hj.before.resolve_right fun hor => hbb hor.2.1
    have hless : 0 < b - b' := by
      rw [hA'] at hA
      exact hA.around.2.1
    obtain ⟨m₁, hrun₁, hsound₁, hlimit₁, hindex₁, -, hw₁⟩ :=
      h.mallocHere rfl hindex hlimit hless (by omega) hfuel
    rw [leftover, if_pos (by omega), show b' + (b - b') = b by omega] at hsound₁ hindex₁
    have hshape : A' ++ ⟨b', b - b', .large⟩ :: ([⟨b, n' - (b - b'), .free⟩] ++ B') =
        (A' ++ [⟨b', b - b', .large⟩]) ++ ⟨b, n' - (b - b'), .free⟩ :: B' := by simp
    obtain ⟨m₂, hrun₂, hsound₂, hlimit₂, -, -, hw₂⟩ :=
      hsound₁.mallocHere hshape hindex₁ hlimit₁ hpos (by omega) hfuel
    have hshape' : ∀ C, (A' ++ [⟨b', b - b', .large⟩]) ++ ⟨b, n, .large⟩ :: C =
        A' ++ ⟨b', b - b', .large⟩ :: ⟨b, n, .large⟩ :: C := fun C => by simp
    obtain ⟨m₃, -, -, -, -, hrun₃, -, -, hw₃, -⟩ :=
      hsound₂.describes.freeBlocks (hshape' _) (Or.inl hlimit₂) hfuel
    rw [if_neg fun heq => hbb heq, run_bind_some hrun₁, run_bind_some hrun₂,
      hsound₂.describes.free_large (n := b - b') (by simp)]
    exact ⟨m₃, hrun₃, hw₃.trans (hw₂.trans hw₁)⟩

/-! ### What may come of a call -/

/-- What `realloc` of an area may come to: `sbrk` warns, or the area is where the call says, the
others stay and all of them hold what they did. -/
inductive Resizes (m : Machine) (s : Shape) (p : UInt32) (len : Nat) (size : UInt32) :
    Option (UInt32 × Machine) → Prop
  | spent (m' : Machine) : m'.warned = true → 1024 < s.lim + need size →
      Resizes m s p len size (some (0, m'))
  | area (q : UInt32) (n : Nat) (m' : Machine) (s' : Shape) : size.toNat ≤ n →
      (q = p ∨ ∀ n, ¬ s.Holds q n) → Sound m' s' →
      (∀ r n', s'.Holds r n' ↔ s.Holds r n' ∧ r ≠ p ∨ r = q ∧ n' = n) →
      Keeps (fun r n => s.Holds r n ∧ r ≠ p) m.mem m'.mem →
      (∀ k < min size.toNat len, m'.mem (q + .ofNat k) = m.mem (p + .ofNat k)) →
      m'.warned = m.warned → Resizes m s p len size (some (q, m'))

section Resize

variable (h : Sound m s) (hp : s.Holds p len)
include h hp

theorem Sound.byte_inside {k : Nat} (hk : k < len) : (p + .ofNat k).toNat = p.toNat + k := by
  have hinside := h.describes.inside hp
  exact toNat_byte (by omega)

/-- An area that is what is asked for already. -/
theorem Sound.same_area (hfits : size.toNat ≤ len) : Resizes m s p len size (some (p, m)) := by
  refine .area p len m s hfits (Or.inl rfl) h (fun r n => ⟨fun hr => ?_, ?_⟩) (Keeps.refl _ _)
    (fun k _ => rfl) rfl
  · by_cases hrp : r = p
    · subst hrp
      have hbounds := h.describes.bounds hr
      have hbounds' := h.describes.bounds hp
      refine Or.inr ⟨rfl, ?_⟩
      rcases h.describes.disjoint hr hp with heq | hout
      · exact heq.2
      · omega
    · exact Or.inl ⟨hr, hrp⟩
  · rintro (hr | ⟨rfl, rfl⟩)
    · exact hr.1
    · exact hp

/-- A new area gets what the old one has, and the old one is given back. -/
theorem Sound.moveArea {m₁ : Machine} {s₁ : Shape} {n : Nat} (count : UInt32) (h₁ : Sound m₁ s₁)
    (hfresh : ∀ n, ¬ s.Holds q n) (hholds : ∀ r n', s₁.Holds r n' ↔ s.Holds r n' ∨ r = q ∧ n' = n)
    (hkeeps : Keeps s.Holds m.mem m₁.mem) (hw : m₁.warned = m.warned) (hfits : size.toNat ≤ n)
    (hcount : count.toNat = min size.toNat len) (hsize0 : size ≠ 0) (hfuel : 1024 < fuel) :
    ∃ m', (Malloc.free fuel p).run { m₁ with mem := (memcpy q p count m₁.mem).2 } = some ((), m') ∧
      Resizes m s p len size (some (q, m')) := by
  have hd₁ := h₁.describes
  have hp₁ : s₁.Holds p len := (hholds p len).mpr (Or.inl hp)
  have hq₁ : s₁.Holds q n := (hholds q n).mpr (Or.inr ⟨rfl, rfl⟩)
  have hqp : q ≠ p := fun heq => hfresh len (heq ▸ hp)
  have hin_p := hd₁.inside hp₁
  have hin_q := hd₁.inside hq₁
  have hbounds := hd₁.bounds hp₁
  have hpos : size.toNat ≠ 0 := fun hz => hsize0 (UInt32.toNat_inj.mp hz)
  have hapart := (hd₁.disjoint hq₁ hp₁).resolve_left fun heq => hqp heq.1
  have hcount0 : count ≠ 0 := by
    rintro rfl
    change 0 = _ at hcount
    omega
  have hcopied : Copied q p count.toNat m₁.mem (memcpy q p count m₁.mem).2 :=
    copied_memcpy (by omega) (by omega) (by omega) hcount0
  have h₂ : Sound { m₁ with mem := (memcpy q p count m₁.mem).2 } s₁ :=
    h₁.withMem hq₁ fun a ha => hcopied.other a (by omega)
  obtain ⟨m', s', hrun, hsound, hholds', hkeeps', hw'⟩ := h₂.free hfuel hp₁
  have hall : ∀ r n', s'.Holds r n' ↔ s.Holds r n' ∧ r ≠ p ∨ r = q ∧ n' = n := by
    intro r n'
    rw [hholds', hholds]
    constructor
    · rintro ⟨hr | hr, hne⟩
      · exact Or.inl ⟨hr, hne⟩
      · exact Or.inr hr
    · rintro (⟨hr, hne⟩ | ⟨rfl, hn⟩)
      · exact ⟨Or.inl hr, hne⟩
      · exact ⟨Or.inr ⟨rfl, hn⟩, hqp⟩
  refine ⟨m', hrun, .area q n m' s' hfits (Or.inr hfresh) hsound hall ?_ ?_ (hw'.trans hw)⟩
  · rintro r n' ⟨hr, hne⟩ a hlow hhigh
    have hr₁ : s₁.Holds r n' := (hholds r n').mpr (Or.inl hr)
    have hout := (hd₁.disjoint hr₁ hq₁).resolve_left fun heq => hfresh n' (heq.1 ▸ hr)
    rw [hkeeps' r n' ((hall r n').mpr (Or.inl ⟨hr, hne⟩)) a hlow hhigh]
    exact (hcopied.other a (by omega)).trans (hkeeps r n' hr a hlow hhigh)
  · intro k hk
    have hq' : s'.Holds q n := (hall q n).mpr (Or.inr ⟨rfl, rfl⟩)
    have hbyte_q := h₁.byte_inside hq₁ (k := k) (by omega)
    have hbyte_p := h.byte_inside hp (k := k) (by omega)
    rw [hkeeps' q n hq' _ (by omega) (by omega)]
    exact (hcopied.same k (by omega)).trans (hkeeps p len hp _ (by omega) (by omega))

end Resize

/-! ### Whole blocks -/

section Blocks

variable (h : Sound m s) (hs : s.clusters = A ++ ⟨b, n, .large⟩ :: B) (hfuel : 1024 < fuel)
include h hs

omit h in
theorem large_holds : s.Holds (blockAddr b) (n * 4096).toNat :=
  ⟨⟨b, n, .large⟩, by rw [hs]; exact List.mem_append_right _ List.mem_cons_self, rfl, rfl⟩

/-- The heap is in use, and its limit is where it ends. -/
theorem Sound.limit_eq : m.heaplimit = s.lim ∧ 4 ≤ b ∧ 0 < n ∧ b + n ≤ s.lim ∧ s.lim ≤ 1024 := by
  have hblocks := h.describes.blocks
  rw [hs] at hblocks
  obtain ⟨hA, hpos, hB⟩ := hblocks.parts
  have hlow := hA.le
  have hend := hB.le
  exact ⟨h.limit.resolve_right fun hz => by omega, hlow, hpos, hend, h.describes.ready.high⟩

include hfuel

/-- The blocks behind are given back. -/
theorem Sound.shrink (hk : 0 < k) (hn : k < n) (hsize : size.toNat ≤ (k * 4096).toNat) :
    ∃ m', (Malloc.free fuel (blockAddr (b + k))).run
        (((m.setType (b + k) 0).setBusySize (b + k) (n - k)).setBusySize b k) = some ((), m') ∧
      Resizes m s (blockAddr b) (n * 4096).toNat size (some (blockAddr b, m')) := by
  have hd := h.describes.splitLarge hs hk hn
  have hsound : Sound (((m.setType (b + k) 0).setBusySize (b + k) (n - k)).setBusySize b k)
      { s with clusters := A ++ ⟨b, k, .large⟩ :: ⟨b + k, n - k, .large⟩ :: B } := by
    refine ⟨hd, h.limit, fun log x hx hlen => ?_⟩
    have hsole := h.sole log x
    rw [hs, fragBlocks_append] at hsole
    dsimp only at hx hlen ⊢
    rw [fragBlocks_append] at hx ⊢
    exact hsole hx hlen
  obtain ⟨m', s', hrun, hsound', hholds, hmem, hw⟩ := hsound.freeBlocks hfuel
    (A := A ++ [⟨b, k, .large⟩]) (B := B) (b := b + k) (n := n - k) (by simp)
  have hall : ∀ r n', s'.Holds r n' ↔ s.Holds r n' ∧ r ≠ blockAddr b ∨
      r = blockAddr b ∧ n' = (k * 4096).toNat := by
    intro r n'
    have hfirst : Holding s.group [⟨b, k, .large⟩] r n' ↔
        r = blockAddr b ∧ n' = (k * 4096).toNat := by
      rw [holding_cons, holds_large]
      exact or_iff_left (holding_nil _)
    rw [hholds, ← h.describes.other_large hs, holding_append, holding_append,
      holding_append, hfirst]
    exact or_right_comm
  refine ⟨m', ?_, .area _ _ m' s' hsize (Or.inl rfl) hsound' hall ?_ ?_ hw⟩
  · rw [hd.free_large (n := n - k) (by simp)]
    exact hrun
  · rw [hmem]
    exact Keeps.refl _ _
  · intro j _
    rw [hmem]
    rfl

omit hfuel in
/-- What was in the blocks is moved to where they are now. -/
theorem Sound.moveBlocks {m₃ : Machine} {s₃ : Shape} {len' : Nat} (h₃ : Sound m₃ s₃)
    (hfresh : ∀ r, ¬ (s.Holds q r ∧ q ≠ blockAddr b))
    (hholds : ∀ r n', s₃.Holds r n' ↔ s.Holds r n' ∧ r ≠ blockAddr b ∨ r = q ∧ n' = len')
    (hmem : Beyond s.lim m.mem m₃.mem) (hw : m₃.warned = m.warned) (hfits : size.toNat ≤ len')
    (hlen : (n * 4096).toNat ≤ len') :
    Resizes m s (blockAddr b) (n * 4096).toNat size ((do
      if blockAddr b ≠ q then
        modify fun m => { m with
          mem := (memmove q (blockAddr b) (UInt32.ofInt (n * 4096)) m.mem).2 }
      pure q : HeapM UInt32).run m₃) := by
  obtain ⟨-, hlow, hpos, hend, hhigh⟩ := h.limit_eq hs
  have hp := large_holds hs
  have hd₃ := h₃.describes
  have hq₃ : s₃.Holds q len' := (hholds q len').mpr (Or.inr ⟨rfl, rfl⟩)
  have hin_p := h.describes.inside hp
  have hin_q := hd₃.inside hq₃
  have hbytes := toNat_ofInt (k := n * 4096) (by omega) (by omega)
  have hbytes : (UInt32.ofInt (n * 4096)).toNat = (n * 4096).toNat := by omega
  obtain ⟨mem₄, hrun, hcopied⟩ : ∃ mem₄, (do
      if blockAddr b ≠ q then
        modify fun m => { m with
          mem := (memmove q (blockAddr b) (UInt32.ofInt (n * 4096)) m.mem).2 }
      pure q : HeapM UInt32).run m₃ = some (q, { m₃ with mem := mem₄ }) ∧
      Copied q (blockAddr b) (n * 4096).toNat m₃.mem mem₄ := by
    by_cases hmove : blockAddr b ≠ q
    · refine ⟨_, by rw [if_pos hmove]; rfl, ?_⟩
      have hcopied : Copied q (blockAddr b) (UInt32.ofInt (n * 4096)).toNat m₃.mem
          (memmove q (blockAddr b) (UInt32.ofInt (n * 4096)) m₃.mem).2 :=
        copied_memmove (by omega) (by omega)
      rwa [hbytes] at hcopied
    · refine ⟨m₃.mem, by rw [if_neg hmove]; rfl, ?_⟩
      obtain rfl := not_not.mp hmove
      exact ⟨fun _ _ => rfl, fun _ _ => rfl⟩
  rw [hrun]
  refine .area q len' _ s₃ hfits ?_ (h₃.withMem hq₃ fun a ha => hcopied.other a (by omega)) hholds
    ?_ ?_ hw
  · by_cases hqp : q = blockAddr b
    · exact Or.inl hqp
    · exact Or.inr fun r hr => hfresh r ⟨hr, hqp⟩
  · rintro r n' ⟨hr, hne⟩ a hlow' hhigh'
    have hr₃ : s₃.Holds r n' := (hholds r n').mpr (Or.inl ⟨hr, hne⟩)
    have hout := (hd₃.disjoint hr₃ hq₃).resolve_left fun heq => hfresh n' (heq.1 ▸ ⟨hr, hne⟩)
    have hbounds := h.describes.bounds hr
    exact (hcopied.other a (by omega)).trans (hmem a (Or.inl (by omega)))
  · intro j hj
    have hbyte := h.byte_inside hp (k := j) (by omega)
    have hbounds := h.describes.bounds hp
    exact (hcopied.same j (by omega)).trans (hmem _ (Or.inl (by omega)))

/-- The blocks are given back first, so that what is free around them can be used. -/
theorem Sound.grow (hk : blockify size = k) (hn : n < k) (hsize : size.toNat < 2 ^ 31) :
    Resizes m s (blockAddr b) (n * 4096).toNat size ((do
      modify fun m => { m with heaplimit := 0 }
      Malloc.free fuel (blockAddr b)
      modify fun m' => { m' with heaplimit := m.heaplimit }
      let result ← Malloc.malloc fuel size
      if result = 0 then do
        Malloc.unfree fuel b n
        pure 0
      else do
        if blockAddr b ≠ result then
          modify fun m => { m with
            mem := (memmove result (blockAddr b) (UInt32.ofInt (n * 4096)) m.mem).2 }
        pure result : HeapM UInt32).run m) := by
  have hd := h.describes
  obtain ⟨hlimit, hlow, hpos, hend, hhigh⟩ := h.limit_eq hs
  have hp := large_holds hs
  have hmem_c : (⟨b, n, .large⟩ : Cluster) ∈ s.clusters := by
    rw [hs]
    exact List.mem_append_right _ List.mem_cons_self
  have hblocks := hd.blocks
  rw [hs] at hblocks
  obtain ⟨hA, -, hB⟩ := hblocks.parts
  -- nothing is returned to the system while the limit is zero
  obtain ⟨m₁, A', b', n', B', hrun₁, hj, hmem₁, hw₁, hcases⟩ :=
    (hd.withLimit 0).freeBlocks hs (Or.inr rfl) hfuel
  obtain ⟨hlimit₁, hindex₁, hd₁⟩ := hcases.resolve_right fun hr => by
    have := hr.2.1
    dsimp only at this
    have := hd.ready.low
    omega
  have hfree := (hd.withLimit 0).free_large hmem_c fuel
  rw [hrun₁] at hfree
  have h₂ : Sound { m₁ with heaplimit := m.heaplimit }
      { s with clusters := A' ++ ⟨b', n', .free⟩ :: B' } := by
    refine ⟨hd₁.withLimit _, Or.inl hlimit, fun log x hx hlen => ?_⟩
    have hsole := h.sole log x
    dsimp only at hx hlen ⊢
    rw [fragBlocks_joined hj, ← hs] at hx ⊢
    exact hsole hx hlen
  have hholds₂ : ∀ r n'', Shape.Holds { s with clusters := A' ++ ⟨b', n', .free⟩ :: B' } r n'' ↔
      s.Holds r n'' ∧ r ≠ blockAddr b := fun r n'' =>
    Iff.trans hj.holding (hd.other_large hs)
  rw [run_modify_bind, run_bind_some hfree, run_modify_bind]
  have hmem₂ : ({ m₁ with heaplimit := m.heaplimit } : Machine).mem = m.mem := hmem₁
  have hw₂ : ({ m₁ with heaplimit := m.heaplimit } : Machine).warned = m.warned := hw₁
  have hindex₂ : ({ m₁ with heaplimit := m.heaplimit } : Machine).heapindex = b' := hindex₁
  have hlimit₂ : ({ m₁ with heaplimit := m.heaplimit } : Machine).heaplimit = s.lim := hlimit
  generalize ({ m₁ with heaplimit := m.heaplimit } : Machine) = m₂
    at h₂ hmem₂ hw₂ hindex₂ hlimit₂ ⊢
  have hblocks_size := blockify_eq hsize
  have hround : roundedSize size = size := by
    rw [roundedSize, if_neg]
    intro hlt
    have : size.toNat < 8 := UInt32.lt_iff_toNat_lt.mp hlt
    omega
  have hsize0 : size ≠ 0 := by
    rintro rfl
    change blockify 0 = 0 at hblocks_size
    omega
  have hgives := h₂.describes.mallocBlocks h₂.limit hsize0 hsize hfuel
  have hmalloc := malloc_large h₂.describes.ready.initialized hsize0 (by rw [hround]; omega) fuel
  rw [hround] at hmalloc
  rw [← hmalloc, hk] at hgives
  generalize hrun₃ : (Malloc.malloc fuel size).run m₂ = run at hgives
  cases hgives with
  | taken b₃ lim₃ cs₃ m₃ ht hmem₃ hw₃ hlimit₃ hd₃ =>
    have h₃ := h₂.taken hd₃ ht hlimit₃
    have hholds₃ : ∀ r n'', Shape.Holds { s with lim := lim₃, clusters := cs₃ } r n'' ↔
        s.Holds r n'' ∧ r ≠ blockAddr b ∨ r = blockAddr b₃ ∧ n'' = (k * 4096).toNat :=
      fun r n'' => Iff.trans ht.holding (or_congr_left (hholds₂ r n''))
    have hq₃ := (hholds₃ (blockAddr b₃) (k * 4096).toNat).mpr (Or.inr ⟨rfl, rfl⟩)
    have hne : blockAddr b₃ ≠ 0 := by
      intro hz
      have hbounds := (h₃.describes.bounds hq₃).1
      rw [hz] at hbounds
      exact absurd hbounds (by decide)
    rw [run_bind_some hrun₃, if_neg hne]
    refine h.moveBlocks hs h₃ (fun r hr => h₂.describes.taken_fresh ht ((hholds₂ _ r).mpr hr))
      hholds₃ ?_ (hw₃.trans hw₂) (by omega) (by omega)
    rw [← hmem₂]
    exact hmem₃
  | exhausted mem hex hd₃ =>
    obtain ⟨m₄, hrun₄, hw₄⟩ := Sound.unfree ⟨hd₃, h₂.limit, h₂.sole⟩ hj hpos hA hB hindex₂ hlimit₂
      hfuel
    rw [run_bind_some hrun₃, if_pos rfl, run_bind_some hrun₄]
    refine .spent m₄ hw₄ ?_
    rw [need, hround, hk]
    exact hex.2.1

end Blocks

/-! ### All of it -/

section Realloc

variable (h : Sound m s) (hfuel : 1024 < fuel) (hsize : size.toNat < 2 ^ 31) (hsize0 : size ≠ 0)
include h hfuel hsize hsize0

theorem Sound.reallocBlocks (hs : s.clusters = A ++ ⟨b, n, .large⟩ :: B) :
    Resizes m s (blockAddr b) (n * 4096).toNat size
      ((Malloc.reallocBlocks fuel (blockAddr b) size b).run m) := by
  obtain ⟨-, hlow, hpos, hend, hhigh⟩ := h.limit_eq hs
  have hp := large_holds hs
  have hentry := h.describes.blocks.entries ⟨b, n, .large⟩ (by
    rw [hs]
    exact List.mem_append_right _ List.mem_cons_self)
  have hbusy : (m.heapinfo b).busySize = n := hentry.2
  rw [Malloc.reallocBlocks]
  by_cases hsmall : size ≤ blocksize / 2
  · have hsmall' : size.toNat ≤ 2048 := UInt32.le_iff_toNat_le.mp hsmall
    have halloc := h.malloc hfuel hsize
    rw [if_pos hsmall]
    generalize hrun : (Malloc.malloc fuel size).run m = run at halloc
    cases halloc with
    | null hz => exact absurd hz hsize0
    | spent m₁ _ hfull hw =>
      rw [run_bind_some hrun, if_neg (not_not.mpr rfl)]
      exact .spent m₁ hw (hfull.room hsize)
    | area q len' m₁ s₁ _ _ hfits hfresh h₁ hholds hkeeps hw _ =>
      obtain ⟨m', hfree, hresizes⟩ := h.moveArea hp size h₁ hfresh hholds hkeeps hw hfits
        (by omega) hsize0 hfuel
      have hq0 : q ≠ 0 := by
        rintro rfl
        exact absurd (h₁.describes.bounds ((hholds 0 len').mpr (Or.inr ⟨rfl, rfl⟩))).1 (by decide)
      rw [run_bind_some hrun, if_pos hq0, run_modify_bind, run_bind_some hfree]
      exact hresizes
  · rw [if_neg hsmall, run_get_bind]
    obtain ⟨hk, -, hfits⟩ := blockify_bounds hsize0 hsize
    dsimp only
    split
    case isTrue hless =>
      rw [hbusy] at hless
      obtain ⟨m', hrun, hresizes⟩ := h.shrink hs hfuel hk hless
        (by omega : size.toNat ≤ (blockify size * 4096).toNat)
      have hbase : ∀ x : Int, m.address x = blockAddr x := address_eq h.describes.ready.heapbase
      have hstep : ((m.setType (b + blockify size) 0).heapinfo b).busySize = n :=
        (next_setSize (m := m) (b + blockify size) b 0).trans hbusy
      rw [run_modify_bind, run_modify_bind, run_modify_bind, hbase, hstep, run_bind_some hrun]
      exact hresizes
    case isFalse hnot =>
      rw [hbusy] at hnot
      split
      case isTrue heq =>
        rw [hbusy] at heq
        exact h.same_area hp (by omega)
      case isFalse hne =>
        rw [hbusy] at hne
        have hgrow := h.grow hs hfuel (k := blockify size) rfl (by omega) hsize
        rw [hbusy]
        exact hgrow

theorem Sound.reallocFragment (hp : s.Holds p (2 ^ log)) (hlog : log < 12) :
    Resizes m s p (2 ^ log) size ((Malloc.reallocFragment fuel p size log).run m) := by
  have hint : size.toInt32.toInt = size.toNat := by
    rw [toInt_toInt32, Int.bmod_def]
    omega
  have hpow : 2 ^ log ≤ 2 ^ 11 := Nat.pow_le_pow_right (by omega) (by omega)
  rw [Malloc.reallocFragment, hint]
  split
  case isTrue hfits =>
    obtain ⟨-, hfits⟩ := hfits
    exact h.same_area hp (by exact_mod_cast hfits)
  case isFalse =>
    have halloc := h.malloc hfuel hsize
    generalize hrun : (Malloc.malloc fuel size).run m = run at halloc
    cases halloc with
    | null hz => exact absurd hz hsize0
    | spent m₁ _ hfull hw =>
      rw [run_bind_some hrun, if_pos rfl]
      exact .spent m₁ hw (hfull.room hsize)
    | area q len' m₁ s₁ _ _ hfits hfresh h₁ hholds hkeeps hw _ =>
      have hcount : (UInt32.ofInt (min (size.toNat : Int) (2 ^ log))).toNat =
          min size.toNat (2 ^ log) := by
        have hcast : ((2 ^ log : Nat) : Int) = 2 ^ log := Nat.cast_pow 2 log
        rw [← hcast]
        generalize 2 ^ log = bytes at *
        have := toNat_ofInt (k := min (size.toNat : Int) (bytes : Int)) (by omega) (by omega)
        omega
      obtain ⟨m', hfree, hresizes⟩ :=
        h.moveArea hp _ h₁ hfresh hholds hkeeps hw hfits hcount hsize0 hfuel
      have hq0 : q ≠ 0 := by
        rintro rfl
        exact absurd (h₁.describes.bounds ((hholds 0 len').mpr (Or.inr ⟨rfl, rfl⟩))).1 (by decide)
      rw [run_bind_some hrun, if_neg hq0, run_modify_bind, run_bind_some hfree]
      exact hresizes

/-- `realloc` of an area to another size. -/
theorem Sound.realloc (hp : s.Holds p len) :
    Resizes m s p len size ((Malloc.realloc fuel p size).run m) := by
  have hd := h.describes
  have hr := hd.ready
  have hbounds := hd.bounds hp
  have hne : p ≠ 0 := by
    rintro rfl
    exact absurd hbounds.1 (by decide)
  have hhigh := hr.high
  have harea := hp
  obtain ⟨⟨b, n, use⟩, hc, hp⟩ := hp
  have hmem := hd.blocks.tiled.mem hc
  have hentry := hd.blocks.entries _ hc
  dsimp only at hmem
  rw [Malloc.realloc, if_neg hne, if_neg hsize0, run_get_bind]
  dsimp only
  cases use with
  | free => exact hp.elim
  | large =>
    obtain ⟨rfl, rfl⟩ := hp
    obtain ⟨A, B, hs⟩ := List.append_of_mem hc
    dsimp only
    rw [block_blockAddr hr.heapbase (by omega) (by omega), if_pos hentry.1]
    exact h.reallocBlocks hfuel hsize hsize0 hs
  | frag log =>
    obtain ⟨i, hi, hfresh, rfl, rfl⟩ := hp
    obtain ⟨-, hlog3, hlog, htype, -⟩ := hentry
    dsimp only at htype hi harea ⊢
    rw [block_fragAddr hr.heapbase (by omega) hlog.le hi, htype, if_neg (by omega),
      Int.toNat_natCast]
    exact h.reallocFragment hfuel hsize hsize0 harea hlog

end Realloc

/-- `realloc` to no bytes gives the area back. -/
theorem Sound.realloc_zero (h : Sound m s) (hp : s.Holds p len) (hfuel : 1024 < fuel) :
    ∃ m' s', (Malloc.realloc fuel p 0).run m = some (0, m') ∧ Sound m' s' ∧
      (∀ q n, s'.Holds q n ↔ s.Holds q n ∧ q ≠ p) ∧ Keeps s'.Holds m.mem m'.mem ∧
      m'.warned = m.warned := by
  have hbounds := h.describes.bounds hp
  have hne : p ≠ 0 := by
    rintro rfl
    exact absurd hbounds.1 (by decide)
  obtain ⟨m', s', hrun, h', hholds, hkeeps, hw⟩ := h.free hfuel hp
  have hmalloc : (Malloc.malloc fuel 0).run m' = some (0, m') := by
    rw [Malloc.malloc, run_get_bind]
    dsimp only
    rw [h'.describes.ready.initialized, if_pos rfl, pure_bind,
      if_neg Bool.false_ne_true.symm, if_pos rfl]
    rfl
  refine ⟨m', s', ?_, h', hholds, hkeeps, hw⟩
  rw [Malloc.realloc, if_neg hne, if_pos rfl, run_bind_some hrun]
  exact hmalloc

end Malloc
