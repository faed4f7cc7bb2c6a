import CobaltRom.Malloc.Shape

/-! How the list of free clusters changes where a few clusters are exchanged for others. -/
namespace Malloc
open DoubleLink Tiling

variable {info info' : Int → Info} {lim lim' lo hi p n b e size : Int} {g g' : Int → List Nat}
  {A B mid mid' cs : List Cluster} {c d : Cluster} {use : Use} {log : Nat}

/-! ### The free clusters -/

theorem frees_append (A B : List Cluster) : frees (A ++ B) = frees A ++ frees B := by
  rw [frees, List.filter_append, List.map_append]
  rfl

@[simp]
theorem frees_nil : frees [] = [] := rfl

@[simp]
theorem frees_cons_free (b size : Int) (cs : List Cluster) :
    frees (⟨b, size, .free⟩ :: cs) = b :: frees cs := rfl

@[simp]
theorem frees_cons_large (b size : Int) (cs : List Cluster) :
    frees (⟨b, size, .large⟩ :: cs) = frees cs := rfl

@[simp]
theorem frees_cons_frag (b size : Int) (log : Nat) (cs : List Cluster) :
    frees (⟨b, size, .frag log⟩ :: cs) = frees cs := rfl

theorem frees_cons_busy (hc : c.use ≠ .free) (cs : List Cluster) : frees (c :: cs) = frees cs := by
  simp [frees, hc]

theorem mem_frees : b ∈ frees cs ↔ ∃ c ∈ cs, c.use = .free ∧ c.start = b := by
  simp [frees, and_assoc]

theorem mem_fragBlocks : b ∈ fragBlocks log cs ↔ ∃ c ∈ cs, c.use = .frag log ∧ c.start = b := by
  simp [fragBlocks, and_assoc]

theorem fragBlocks_append (log : Nat) (A B : List Cluster) :
    fragBlocks log (A ++ B) = fragBlocks log A ++ fragBlocks log B := by
  rw [fragBlocks, List.filter_append, List.map_append]
  rfl

/-- The free cluster before a place in the heap, and the one behind. -/
theorem last_mem (A : List Cluster) : (frees A).getLastD 0 ∈ 0 :: frees A := by
  obtain ⟨q, hq⟩ := exists_last 0 (frees A)
  rw [hq]
  exact List.mem_append_right _ List.mem_cons_self

theorem first_mem (B : List Cluster) : (frees B).headD 0 = 0 ∨ (frees B).headD 0 ∈ frees B := by
  rcases List.mem_append.mp (headD_mem (frees B) 0) with h | h
  · exact Or.inr h
  · exact Or.inl (List.mem_singleton.mp h)

/-! ### Free clusters side by side -/

theorem apart_busy (hc : c.use ≠ .free) : Apart (A ++ c :: B) ↔ Apart A ∧ Apart B := by
  rw [Apart, List.isChain_append, List.isChain_cons]
  constructor
  · rintro ⟨hA, ⟨-, hB⟩, -⟩
    exact ⟨hA, hB⟩
  · rintro ⟨hA, hB⟩
    refine ⟨hA, ⟨fun d _ hfree => hc hfree.1, hB⟩, fun x _ y hy hfree => ?_⟩
    obtain rfl := Option.some_inj.mp hy
    exact hc hfree.2

theorem apart_free : Apart (A ++ ⟨b, size, .free⟩ :: B) ↔
    (Apart A ∧ ∀ d ∈ A.getLast?, d.use ≠ .free) ∧ Apart B ∧ ∀ d ∈ B.head?, d.use ≠ .free := by
  rw [Apart, List.isChain_append, List.isChain_cons]
  constructor
  · rintro ⟨hA, ⟨hfirst, hB⟩, hlast⟩
    exact ⟨⟨hA, fun d hd hfree => hlast d hd _ rfl ⟨hfree, rfl⟩⟩, hB,
      fun d hd hfree => hfirst d hd ⟨rfl, hfree⟩⟩
  · rintro ⟨⟨hA, hlast⟩, hB, hfirst⟩
    refine ⟨hA, ⟨fun d hd hfree => hfirst d hd hfree.2, hB⟩,
      fun d hd _ _ hfree => hlast d hd hfree.1⟩

section Tiles

variable (h : Tiled Cluster.start Cluster.size lo cs hi)
include h

theorem frees_bounds (hb : b ∈ frees cs) : lo ≤ b ∧ b < hi := by
  obtain ⟨c, hc, -, rfl⟩ := mem_frees.mp hb
  have := h.mem hc
  omega

theorem frees_sorted : (frees cs).Pairwise (· < ·) :=
  h.sorted.sublist (List.filter_sublist.map Cluster.start)

theorem frees_nodup : (frees cs).Nodup := (frees_sorted h).imp fun hlt => hlt.ne

theorem length_le : cs.length ≤ hi - lo := by
  induction cs generalizing lo with
  | nil =>
    have := h.le
    simpa using this
  | cons c cs ih =>
    obtain ⟨-, hpos, h⟩ := h
    have := ih h
    rw [List.length_cons]
    omega

theorem busy_not_free (hc : c ∈ cs) (huse : c.use ≠ .free) : c.start ∉ frees cs := by
  intro hmem
  obtain ⟨d, hd, hfree, hstart⟩ := mem_frees.mp hmem
  have hcpos := (h.mem hc).2.1
  have hdpos := (h.mem hd).2.1
  have heq : d = c := h.unique hd hc (by omega) (by omega)
  exact huse (heq ▸ hfree)

theorem cyclic_nodup (hlo : 0 < lo) : (0 :: frees cs).Nodup ∧ (frees cs ++ [0]).Nodup := by
  have hzero : 0 ∉ frees cs := fun hmem => by
    have := (frees_bounds h hmem).1
    omega
  constructor
  · exact List.nodup_cons.mpr ⟨hzero, frees_nodup h⟩
  · exact List.nodup_append.mpr ⟨frees_nodup h, List.nodup_singleton 0, by
      rintro x hx y hy rfl
      rw [List.mem_singleton.mp hy] at hx
      exact hzero hx⟩

end Tiles

/-- The free cluster before is not the one behind, nor is the block in between. -/
theorem between (hA : Tiled Cluster.start Cluster.size 4 A b) (hpos : 0 < n)
    (hB : Tiled Cluster.start Cluster.size (b + n) B lim) :
    (frees A).getLastD 0 < b ∧ b ≠ (frees B).headD 0 := by
  have hlow := hA.le
  constructor
  · rcases List.mem_cons.mp (last_mem A) with h0 | hmem
    · omega
    · exact (frees_bounds hA hmem).2
  · rcases first_mem B with h0 | hmem
    · omega
    · have := (frees_bounds hB hmem).1
      omega

/-! ### Exchanging clusters -/

theorem Blocks.parts (h : Blocks info lim g (A ++ ⟨b, size, use⟩ :: B)) :
    Tiled Cluster.start Cluster.size 4 A b ∧ 0 < size ∧
      Tiled Cluster.start Cluster.size (b + size) B lim :=
  h.tiled.around

/-- The links through a part of the heap. -/
theorem Blocks.middle (A mid B : List Cluster) (h : Blocks info lim g (A ++ (mid ++ B))) :
    Linked (fun b => (info b).next) (fun b => (info b).prev) (fun _ => True)
      ((frees A).getLastD 0 :: (frees mid ++ [(frees B).headD 0])) := by
  have hring := h.ring
  rw [Ring, frees_append, frees_append] at hring
  exact hring.middle

/-- Outside a part of the heap only the link of `p` forward and of `n` back are written. -/
structure Relinks (info info' : Int → Info) (lo hi p n : Int) : Prop where
  size : ∀ b, ¬ (lo ≤ b ∧ b < hi) → (info' b).size = (info b).size
  next : ∀ b, ¬ (lo ≤ b ∧ b < hi) → b ≠ p → (info' b).next = (info b).next
  prev : ∀ b, ¬ (lo ≤ b ∧ b < hi) → b ≠ n → (info' b).prev = (info b).prev

theorem Relinks.entry (hr : Relinks info info' lo hi p n) (hout : ¬ (lo ≤ c.start ∧ c.start < hi))
    (hp : c.use ≠ .free → c.start ≠ p) (hn : c.use ≠ .free → c.start ≠ n) {l : List Nat}
    (he : Entry (info c.start) l c) : Entry (info' c.start) l c := by
  unfold Entry at he ⊢
  cases huse : c.use with
  | free =>
    simp only [huse] at he ⊢
    rw [hr.size c.start hout]
    exact he
  | large =>
    have hbusy : c.use ≠ .free := by simp [huse]
    simp only [huse, Info.type, Info.busySize] at he ⊢
    rw [hr.size c.start hout, hr.next c.start hout (hp hbusy)]
    exact he
  | frag log =>
    have hbusy : c.use ≠ .free := by simp [huse]
    simp only [huse, Info.type, Info.nfree, Info.first] at he ⊢
    rw [hr.size c.start hout, hr.next c.start hout (hp hbusy), hr.prev c.start hout (hn hbusy)]
    exact he

/-- The entry of a free cluster, and its place on the list. -/
theorem Blocks.free_cluster (h : Blocks info lim g (A ++ ⟨b, n, .free⟩ :: B)) :
    (info b).size = n ∧ (info b).next = (frees B).headD 0 ∧
      (info b).prev = (frees A).getLastD 0 := by
  have hring := h.ring
  rw [frees_append, frees_cons_free] at hring
  have hcell := hring.at_cell
  exact ⟨h.entries _ (List.mem_append_right _ List.mem_cons_self), hcell.1, hcell.2 trivial⟩

/-- The clusters `mid` are exchanged for `mid'`, which fill the blocks from `lo` to `hi`; behind
them the heap may have come to end elsewhere. -/
theorem Blocks.splice (A mid mid' B : List Cluster) (lo hi : Int)
    (h : Blocks info lim g (A ++ (mid ++ B)))
    (hA : Tiled Cluster.start Cluster.size 4 A lo)
    (hmid : Tiled Cluster.start Cluster.size lo mid' hi)
    (hB : Tiled Cluster.start Cluster.size hi B lim')
    (hr : Relinks info info' lo hi ((frees A).getLastD 0) ((frees B).headD 0))
    (hg : ∀ c ∈ A ++ B, g' c.start = g c.start)
    (hentry : ∀ c ∈ mid', Entry (info' c.start) (g' c.start) c)
    (hlink : Linked (fun b => (info' b).next) (fun b => (info' b).prev) (fun _ => True)
      ((frees A).getLastD 0 :: (frees mid' ++ [(frees B).headD 0]))) :
    Blocks info' lim' g' (A ++ (mid' ++ B)) := by
  have hlo := hA.le
  have hhi := hmid.le
  have htiled : Tiled Cluster.start Cluster.size 4 (A ++ (mid' ++ B)) lim' :=
    tiled_append.mpr ⟨lo, hA, tiled_append.mpr ⟨hi, hmid, hB⟩⟩
  -- the clusters that stay lie outside, and only free ones are linked
  have hstay : ∀ c ∈ A ++ B, ¬ (lo ≤ c.start ∧ c.start < hi) := by
    intro c hc
    rcases List.mem_append.mp hc with hc | hc
    · have := hA.mem hc
      omega
    · have := hB.mem hc
      omega
  have hkept : ∀ c ∈ A ++ B, c ∈ A ++ (mid' ++ B) := by
    intro c hc
    rcases List.mem_append.mp hc with hc | hc
    · exact List.mem_append_left _ hc
    · exact List.mem_append_right _ (List.mem_append_right _ hc)
  have hbusy : ∀ c ∈ A ++ B, c.use ≠ .free → ∀ x ∈ 0 :: (frees A ++ frees B), c.start ≠ x := by
    rintro c hc huse x hx rfl
    rcases List.mem_cons.mp hx with hx | hx
    · have := (htiled.mem (hkept c hc)).1
      omega
    · refine busy_not_free htiled (hkept c hc) huse ?_
      rw [frees_append, frees_append]
      rcases List.mem_append.mp hx with hx | hx
      · exact List.mem_append_left _ hx
      · exact List.mem_append_right _ (List.mem_append_right _ hx)
  have hp : (frees A).getLastD 0 ∈ 0 :: (frees A ++ frees B) := by
    rcases List.mem_cons.mp (last_mem A) with h0 | hmem
    · rw [h0]
      exact List.mem_cons_self
    · exact List.mem_cons_of_mem _ (List.mem_append_left _ hmem)
  have hn : (frees B).headD 0 ∈ 0 :: (frees A ++ frees B) := by
    rcases first_mem B with h0 | hmem
    · rw [h0]
      exact List.mem_cons_self
    · exact List.mem_cons_of_mem _ (List.mem_append_right _ hmem)
  have hzero : ¬ (lo ≤ 0 ∧ (0 : Int) < hi) := by omega
  have hfree : ∀ x ∈ frees A ++ frees B, ¬ (lo ≤ x ∧ x < hi) := by
    intro x hx
    rw [← frees_append] at hx
    obtain ⟨c, hc, -, rfl⟩ := mem_frees.mp hx
    exact hstay c hc
  refine ⟨htiled, ?_, ?_, ?_⟩
  · intro c hc
    have hold : c ∈ A ++ B → Entry (info' c.start) (g' c.start) c := by
      intro hc
      have hin : c ∈ A ++ (mid ++ B) := by
        rcases List.mem_append.mp hc with hc | hc
        · exact List.mem_append_left _ hc
        · exact List.mem_append_right _ (List.mem_append_right _ hc)
      rw [hg c hc]
      exact hr.entry (hstay c hc) (fun hu => hbusy c hc hu _ hp) (fun hu => hbusy c hc hu _ hn)
        (h.entries c hin)
    rcases List.mem_append.mp hc with hc | hc
    · exact hold (List.mem_append_left _ hc)
    · rcases List.mem_append.mp hc with hc | hc
      · exact hentry c hc
      · exact hold (List.mem_append_right _ hc)
  · rw [hr.size 0 hzero]
    exact h.origin
  · have hring := h.ring
    rw [Ring, frees_append, frees_append] at hring ⊢
    have hnodup := cyclic_nodup htiled (by omega)
    rw [frees_append, frees_append] at hnodup
    refine hring.splice hnodup.1 hnodup.2 hlink ?_ ?_
    · intro x hx hne
      rcases List.mem_cons.mp hx with rfl | hx
      · exact hr.next 0 hzero hne
      · exact hr.next x (hfree x hx) hne
    · intro x hx _ hne
      rcases List.mem_append.mp hx with hx | hx
      · exact hr.prev x (hfree x hx) hne
      · obtain rfl := List.mem_singleton.mp hx
        exact hr.prev 0 hzero hne

end Malloc
