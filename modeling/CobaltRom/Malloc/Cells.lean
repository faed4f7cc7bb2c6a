import CobaltRom.Malloc.Shape

/-! The words in memory that link the free fragments: a list is changed by writing the links of the
neighbours of what is put in or taken out. -/
namespace Malloc
open DoubleLink

variable {m m' : Machine} {fragheads a n p q v x h : UInt32} {log log' : Nat}
  {l l₁ l₂ mid : List UInt32}

/-- A `struct list`: the head of a list, or eight bytes in the heap. -/
def Cell (fragheads p : UInt32) : Prop :=
  (∃ log < 12, p = fragheads + .ofNat (8 * log)) ∨
    0x01b00000 ≤ p.toNat ∧ p.toNat + 8 ≤ 0x01f00000 ∧ p.toNat % 8 = 0

theorem toNat_head (hp : Placed fragheads) (hlog : log < 12) :
    (fragheads + .ofNat (8 * log)).toNat = fragheads.toNat + 8 * log := by
  have hlt := fragheads.toNat_lt
  have hout : fragheads.toNat + 96 ≤ 0x01b00000 ∨
      0x01f00000 ≤ fragheads.toNat ∧ fragheads.toNat + 96 ≤ 2 ^ 32 := hp.outside
  rw [UInt32.toNat_add, UInt32.toNat_ofNat']
  omega

theorem Cell.bounds (hp : Placed fragheads) (h : Cell fragheads p) :
    p.toNat % 4 = 0 ∧ p.toNat + 8 ≤ 2 ^ 32 := by
  have hout : fragheads.toNat + 96 ≤ 0x01b00000 ∨
      0x01f00000 ≤ fragheads.toNat ∧ fragheads.toNat + 96 ≤ 2 ^ 32 := hp.outside
  have haligned := hp.aligned
  rcases h with ⟨log, hlog, rfl⟩ | h
  · rw [toNat_head hp hlog]
    omega
  · omega

/-- Two cells do not overlap. -/
theorem Cell.apart (hp : Placed fragheads) (h : Cell fragheads p) (h' : Cell fragheads q)
    (hne : p ≠ q) : p.toNat + 8 ≤ q.toNat ∨ q.toNat + 8 ≤ p.toNat := by
  have hout : fragheads.toNat + 96 ≤ 0x01b00000 ∨
      0x01f00000 ≤ fragheads.toNat ∧ fragheads.toNat + 96 ≤ 2 ^ 32 := hp.outside
  have hne : p.toNat ≠ q.toNat := fun heq => hne (UInt32.toNat_inj.mp heq)
  rcases h with ⟨log, hlog, rfl⟩ | h <;> rcases h' with ⟨log', hlog', rfl⟩ | h'
  · rw [toNat_head hp hlog, toNat_head hp hlog'] at hne ⊢
    omega
  · rw [toNat_head hp hlog]
    omega
  · rw [toNat_head hp hlog']
    omega
  · omega

theorem toNat_prev (hp : Placed fragheads) (h : Cell fragheads p) :
    (p + 4).toNat = p.toNat + 4 := by
  have hb := h.bounds hp
  rw [UInt32.toNat_add]
  change (p.toNat + 4) % 2 ^ 32 = _
  omega

/-! ### One link -/

section Words

variable (hp : Placed fragheads) (hcp : Cell fragheads p) (hcq : Cell fragheads q)
include hp hcp hcq

theorem listNext_setNext : (m.setNext p v).listNext q = if q = p then v else m.listNext q := by
  by_cases heq : q = p
  · rw [if_pos heq, heq]
    exact Ram.le32_store32 m.mem p v
  · rw [if_neg heq]
    exact Ram.le32_store32_ne (hcp.bounds hp).1 (hcq.bounds hp).1 heq

/-- The word of a link back is no link forth. -/
theorem prev_word_ne : q + 4 ≠ p := by
  intro heq
  have hq := toNat_prev hp hcq
  rw [heq] at hq
  by_cases hne : p = q
  · rw [hne] at hq
    omega
  · have := hcp.apart hp hcq hne
    omega

theorem listPrev_setNext : (m.setNext p v).listPrev q = m.listPrev q := by
  have hq := toNat_prev hp hcq
  have haligned := (hcq.bounds hp).1
  exact Ram.le32_store32_ne (hcp.bounds hp).1 (by omega) (prev_word_ne hp hcp hcq)

theorem listNext_setPrev : (m.setPrev p v).listNext q = m.listNext q := by
  have hq := toNat_prev hp hcp
  have haligned := (hcp.bounds hp).1
  exact Ram.le32_store32_ne (by omega) (hcq.bounds hp).1 (prev_word_ne hp hcq hcp).symm

theorem listPrev_setPrev : (m.setPrev p v).listPrev q = if q = p then v else m.listPrev q := by
  have hp' := toNat_prev hp hcp
  have hq' := toNat_prev hp hcq
  have haligned := (hcp.bounds hp).1
  have haligned' := (hcq.bounds hp).1
  by_cases heq : q = p
  · rw [if_pos heq, heq]
    exact Ram.le32_store32 m.mem (p + 4) v
  · rw [if_neg heq]
    refine Ram.le32_store32_ne (by omega) (by omega) fun h => heq ?_
    exact UInt32.add_left_inj 4 |>.mp h

end Words

/-- Bytes outside the cells `cells` are as they were. -/
def OnlyCells (cells : List UInt32) (mem mem' : Ram) : Prop :=
  ∀ b : UInt32, (∀ c ∈ cells, b.toNat < c.toNat ∨ c.toNat + 8 ≤ b.toNat) → mem' b = mem b

theorem OnlyCells.trans {cells : List UInt32} {mem mem' mem'' : Ram}
    (h : OnlyCells cells mem mem') (h' : OnlyCells cells mem' mem'') :
    OnlyCells cells mem mem'' := fun b hb => (h' b hb).trans (h b hb)

section Frame

variable {cells : List UInt32} (hp : Placed fragheads) (hc : Cell fragheads p) (hmem : p ∈ cells)
include hp hc hmem

theorem onlyCells_setNext (v : UInt32) : OnlyCells cells m.mem (m.setNext p v).mem := by
  intro b hb
  have hout := hb p hmem
  have hbounds := (hc.bounds hp).2
  refine Ram.store32_other fun k hk heq => ?_
  have hnat := congrArg UInt32.toNat heq
  rw [UInt32.toNat_add, UInt32.toNat_ofNat'] at hnat
  omega

theorem onlyCells_setPrev (v : UInt32) : OnlyCells cells m.mem (m.setPrev p v).mem := by
  intro b hb
  have hout := hb p hmem
  have hbounds := (hc.bounds hp).2
  have hprev := toNat_prev hp hc
  refine Ram.store32_other fun k hk heq => ?_
  have hnat := congrArg UInt32.toNat heq
  rw [UInt32.toNat_add, UInt32.toNat_ofNat'] at hnat
  omega

end Frame

/-! ### The neighbours -/

/-- `x` has been linked between `a` and `n`. -/
structure Inserted (m m' : Machine) (a x n : UInt32) : Prop where
  same : m' = { m with mem := m'.mem }
  next : ∀ c, Cell m.fragheads c →
    m'.listNext c = if c = a then x else if c = x then n else m.listNext c
  prev : ∀ c, Cell m.fragheads c →
    m'.listPrev c = if n ≠ 0 ∧ c = n then x else if c = x then a else m.listPrev c

/-- What was between `a` and `n` has been taken out. -/
structure Dropped (m m' : Machine) (a n : UInt32) : Prop where
  same : m' = { m with mem := m'.mem }
  next : ∀ c, Cell m.fragheads c → m'.listNext c = if c = a then n else m.listNext c
  prev : ∀ c, Cell m.fragheads c → m'.listPrev c = if n ≠ 0 ∧ c = n then a else m.listPrev c

section Lists

variable (hcells : ∀ c ∈ h :: l, Cell m.fragheads c)
include hcells

theorem Fragments.other_inserted (hf : Fragments m h l) (hi : Inserted m m' a x n)
    (ha : a ∉ h :: l) (hx : x ∉ h :: l) (hn : n ≠ 0 → n ∉ h :: l) : Fragments m' h l := by
  have hout : ∀ c ∈ h :: l, c ≠ a ∧ c ≠ x ∧ ¬ (n ≠ 0 ∧ c = n) := by
    intro c hc
    refine ⟨?_, ?_, ?_⟩
    · rintro rfl
      exact ha hc
    · rintro rfl
      exact hx hc
    · rintro ⟨hne, rfl⟩
      exact hn hne hc
  refine hf.congr (fun c hc => ?_) (fun c hc hk => ?_)
  · obtain ⟨hca, hcx, -⟩ := hout c hc
    rw [hi.next c (hcells c hc), if_neg hca, if_neg hcx]
  · have hmem : c ∈ h :: l :=
      List.mem_cons_of_mem _ ((List.mem_append.mp hc).resolve_right fun h0 =>
      hk (List.mem_singleton.mp h0))
    obtain ⟨-, hcx, hcn⟩ := hout c hmem
    rw [hi.prev c (hcells c hmem), if_neg hcn, if_neg hcx]

theorem Fragments.other_dropped (hf : Fragments m h l) (hd : Dropped m m' a n) (ha : a ∉ h :: l)
    (hn : n ≠ 0 → n ∉ h :: l) : Fragments m' h l := by
  have hout : ∀ c ∈ h :: l, c ≠ a ∧ ¬ (n ≠ 0 ∧ c = n) := by
    intro c hc
    refine ⟨?_, ?_⟩
    · rintro rfl
      exact ha hc
    · rintro ⟨hne, rfl⟩
      exact hn hne hc
  refine hf.congr (fun c hc => ?_) (fun c hc hk => ?_)
  · rw [hd.next c (hcells c hc), if_neg (hout c hc).1]
  · have hmem : c ∈ h :: l :=
      List.mem_cons_of_mem _ ((List.mem_append.mp hc).resolve_right fun h0 =>
      hk (List.mem_singleton.mp h0))
    rw [hd.prev c (hcells c hmem), if_neg (hout c hmem).2]

end Lists

theorem Fragments.insert (l₁ l₂ : List UInt32)
    (hcells : ∀ c ∈ h :: (l₁ ++ l₂), Cell m.fragheads c)
    (hcell : Cell m.fragheads x) (hf : Fragments m h (l₁ ++ l₂))
    (hi : Inserted m m' (l₁.getLastD h) x (l₂.headD 0)) (hx : x ∉ h :: (l₁ ++ l₂)) (hx0 : x ≠ 0) :
    Fragments m' h (l₁ ++ x :: l₂) := by
  have ha : l₁.getLastD h ∈ h :: (l₁ ++ l₂) := by
    obtain ⟨p, hp⟩ := exists_last h l₁
    rw [← List.cons_append, hp]
    exact List.mem_append_left _ (List.mem_append_right _ List.mem_cons_self)
  have hxa : x ≠ l₁.getLastD h := fun he => hx (he ▸ ha)
  have hxn : ¬ (l₂.headD 0 ≠ 0 ∧ x = l₂.headD 0) := by
    rintro ⟨hne, rfl⟩
    rcases List.mem_append.mp (headD_mem l₂ 0) with hmem | hmem
    · exact hx (List.mem_cons_of_mem _ (List.mem_append_right _ hmem))
    · exact hne (List.mem_singleton.mp hmem)
  have hcell' : ∀ c ∈ h :: (l₁ ++ l₂), Cell m.fragheads c ∧ c ≠ x := fun c hc =>
    ⟨hcells c hc, fun he => hx (he ▸ hc)⟩
  obtain ⟨hxh, hxl⟩ := not_or.mp fun hor => hx (List.mem_cons.mpr hor)
  have hold : Threaded m.listNext m.listPrev (· ≠ 0) h 0 (l₁ ++ ([] ++ l₂)) := hf
  change Threaded m'.listNext m'.listPrev (· ≠ 0) h 0 (l₁ ++ ([x] ++ l₂))
  refine hold.splice ?_ ?_ ?_ ?_ ?_
  · obtain ⟨hh, hl⟩ := List.nodup_cons.mp hf.sources
    refine ((List.perm_middle (a := x)).cons h).nodup_iff.mpr (List.nodup_cons.mpr ⟨?_, ?_⟩)
    · exact fun hmem => (List.mem_cons.mp hmem).elim (Ne.symm hxh) hh
    · exact List.nodup_cons.mpr ⟨hxl, hl⟩
  · refine ((List.perm_middle (a := x)).append_right [0]).nodup_iff.mpr ?_
    rw [List.cons_append]
    refine List.nodup_cons.mpr ⟨fun hmem => ?_, hf.targets⟩
    rcases List.mem_append.mp hmem with hmem | hmem
    · exact hxl hmem
    · exact hx0 (List.mem_singleton.mp hmem)
  · refine linked_pair.mpr ⟨⟨?_, fun _ => ?_⟩, linked_pair.mpr ⟨⟨?_, fun hk => ?_⟩,
      linked_single _ _ _ _⟩⟩
    · rw [hi.next _ (hcells _ ha), if_pos rfl]
    · rw [hi.prev x hcell, if_neg hxn, if_pos rfl]
    · rw [hi.next x hcell, if_neg hxa, if_pos rfl]
    · have hmem : l₂.headD 0 ∈ h :: (l₁ ++ l₂) := by
        rcases List.mem_append.mp (headD_mem l₂ 0) with hmem | hmem
        · exact List.mem_cons_of_mem _ (List.mem_append_right _ hmem)
        · exact absurd (List.mem_singleton.mp hmem) hk
      rw [hi.prev _ (hcells _ hmem), if_pos ⟨hk, rfl⟩]
  · intro c hc hne
    rw [hi.next c (hcells c hc), if_neg hne, if_neg (hcell' c hc).2]
  · intro c hc hk hne
    have hmem : c ∈ h :: (l₁ ++ l₂) := List.mem_cons_of_mem _ ((List.mem_append.mp hc).resolve_right
      fun h0 => hk (List.mem_singleton.mp h0))
    rw [hi.prev c (hcells c hmem), if_neg (fun he => hne he.2), if_neg (hcell' c hmem).2]

theorem Fragments.drop (l₁ mid l₂ : List UInt32)
    (hcells : ∀ c ∈ h :: (l₁ ++ (mid ++ l₂)), Cell m.fragheads c)
    (hf : Fragments m h (l₁ ++ (mid ++ l₂)))
    (hd : Dropped m m' (l₁.getLastD h) (l₂.headD 0)) : Fragments m' h (l₁ ++ l₂) := by
  have hsub : (l₁ ++ l₂).Sublist (l₁ ++ (mid ++ l₂)) :=
    (List.Sublist.refl l₁).append (List.sublist_append_right mid l₂)
  have hcells' : ∀ c ∈ h :: (l₁ ++ l₂), Cell m.fragheads c := fun c hc =>
    hcells c ((hsub.cons_cons h).subset hc)
  have ha : l₁.getLastD h ∈ h :: (l₁ ++ l₂) := by
    obtain ⟨p, hp⟩ := exists_last h l₁
    rw [← List.cons_append, hp]
    exact List.mem_append_left _ (List.mem_append_right _ List.mem_cons_self)
  change Threaded m'.listNext m'.listPrev (· ≠ 0) h 0 (l₁ ++ ([] ++ l₂))
  refine Threaded.splice hf ?_ ?_ ?_ ?_ ?_
  · exact hf.sources.sublist (hsub.cons_cons h)
  · exact hf.targets.sublist (hsub.append_right [0])
  · refine linked_pair.mpr ⟨⟨?_, fun hk => ?_⟩, linked_single _ _ _ _⟩
    · rw [hd.next _ (hcells' _ ha), if_pos rfl]
    · have hmem : l₂.headD 0 ∈ h :: (l₁ ++ l₂) := by
        rcases List.mem_append.mp (headD_mem l₂ 0) with hmem | hmem
        · exact List.mem_cons_of_mem _ (List.mem_append_right _ hmem)
        · exact absurd (List.mem_singleton.mp hmem) hk
      rw [hd.prev _ (hcells' _ hmem), if_pos ⟨hk, rfl⟩]
  · intro c hc hne
    rw [hd.next c (hcells' c hc), if_neg hne]
  · intro c hc hk hne
    have hmem : c ∈ h :: (l₁ ++ l₂) := List.mem_cons_of_mem _ ((List.mem_append.mp hc).resolve_right
      fun h0 => hk (List.mem_singleton.mp h0))
    rw [hd.prev c (hcells' c hmem), if_neg (fun he => hne he.2)]

/-! ### The writes -/

/-- The four writes that link a cell in, the last where a cell follows. -/
def linkIn (m : Machine) (a x n : UInt32) : Machine :=
  let s := ((m.setNext x n).setPrev x a).setNext a x
  if n ≠ 0 then s.setPrev n x else s

/-- The two writes that take cells out. -/
def linkOver (m : Machine) (a n : UInt32) : Machine :=
  let s := m.setNext a n
  if n ≠ 0 then s.setPrev n a else s

section Writes

variable (cells : List UInt32) (hp : Placed m.fragheads) (ha : Cell m.fragheads a)
  (hn : n ≠ 0 → Cell m.fragheads n)
include hp ha hn

theorem dropped_linkOver : Dropped m (linkOver m a n) a n := by
  rw [linkOver]
  split
  case isTrue hne =>
    refine ⟨rfl, fun c hc => ?_, fun c hc => ?_⟩
    · rw [listNext_setPrev hp (hn hne) hc, listNext_setNext hp ha hc]
    · rw [listPrev_setPrev hp (hn hne) hc, listPrev_setNext hp ha hc]
      simp [hne]
  case isFalse hz =>
    refine ⟨rfl, fun c hc => ?_, fun c hc => ?_⟩
    · rw [listNext_setNext hp ha hc]
    · rw [listPrev_setNext hp ha hc, if_neg fun h => hz h.1]

theorem onlyCells_linkOver (hac : a ∈ cells) (hnc : n ≠ 0 → n ∈ cells) :
    OnlyCells cells m.mem (linkOver m a n).mem := by
  have hfirst : OnlyCells cells m.mem (m.setNext a n).mem := onlyCells_setNext hp ha hac n
  rw [linkOver]
  split
  case isTrue hne => exact hfirst.trans (onlyCells_setPrev hp (hn hne) (hnc hne) a)
  case isFalse => exact hfirst

variable (hx : Cell m.fragheads x)
include hx

theorem inserted_linkIn : Inserted m (linkIn m a x n) a x n := by
  rw [linkIn]
  split
  case isTrue hne =>
    refine ⟨rfl, fun c hc => ?_, fun c hc => ?_⟩
    · rw [listNext_setPrev hp (hn hne) hc, listNext_setNext hp ha hc, listNext_setPrev hp hx hc,
        listNext_setNext hp hx hc]
    · rw [listPrev_setPrev hp (hn hne) hc, listPrev_setNext hp ha hc, listPrev_setPrev hp hx hc,
        listPrev_setNext hp hx hc]
      simp [hne]
  case isFalse hz =>
    refine ⟨rfl, fun c hc => ?_, fun c hc => ?_⟩
    · rw [listNext_setNext hp ha hc, listNext_setPrev hp hx hc, listNext_setNext hp hx hc]
    · rw [listPrev_setNext hp ha hc, listPrev_setPrev hp hx hc, listPrev_setNext hp hx hc]
      simp [hz]

theorem onlyCells_linkIn (hac : a ∈ cells) (hxc : x ∈ cells) (hnc : n ≠ 0 → n ∈ cells) :
    OnlyCells cells m.mem (linkIn m a x n).mem := by
  have hfirst : OnlyCells cells m.mem ((m.setNext x n).setPrev x a).mem :=
    (onlyCells_setNext hp hx hxc n).trans (onlyCells_setPrev hp hx hxc a)
  have hsecond : OnlyCells cells m.mem (((m.setNext x n).setPrev x a).setNext a x).mem :=
    hfirst.trans (onlyCells_setNext hp ha hac x)
  rw [linkIn]
  split
  case isTrue hne => exact hsecond.trans (onlyCells_setPrev hp (hn hne) (hnc hne) x)
  case isFalse => exact hsecond

end Writes

end Malloc
