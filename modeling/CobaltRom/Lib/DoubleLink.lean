import Mathlib.Tactic

/-! Doubly linked lists: from a head through the cells of a list to an end, and back. The head may
be the end, which makes the list a ring. -/
namespace DoubleLink

variable {α : Type*} {next next' prev prev' : α → α} {kept : α → Prop} {a b h x z : α}
  {l l₁ l₂ m m' p q : List α}

/-- Each cell names the one behind it, and each that is kept names the one before it. -/
def Linked (next prev : α → α) (kept : α → Prop) (l : List α) : Prop :=
  l.IsChain fun x y => next x = y ∧ (kept y → prev y = x)

/-- The cells of `l` in order behind the head `h`, with the end `z` behind them. -/
structure Threaded (next prev : α → α) (kept : α → Prop) (h z : α) (l : List α) : Prop where
  sources : (h :: l).Nodup
  targets : (l ++ [z]).Nodup
  linked : Linked next prev kept (h :: (l ++ [z]))

theorem linked_pair : Linked next prev kept (a :: b :: l) ↔
    (next a = b ∧ (kept b → prev b = a)) ∧ Linked next prev kept (b :: l) :=
  List.isChain_cons_cons

theorem linked_split : Linked next prev kept (p ++ a :: q) ↔
    Linked next prev kept (p ++ [a]) ∧ Linked next prev kept (a :: q) :=
  List.isChain_split

theorem linked_single (next prev : α → α) (kept : α → Prop) (a : α) : Linked next prev kept [a] :=
  List.isChain_singleton a

/-- Links that are not written stay. -/
theorem Linked.congr (hl : Linked next prev kept (a :: l))
    (hnext : ∀ x ∈ (a :: l).dropLast, next' x = next x)
    (hprev : ∀ x ∈ l, kept x → prev' x = prev x) : Linked next' prev' kept (a :: l) := by
  induction l generalizing a with
  | nil => exact linked_single next' prev' kept a
  | cons b l ih =>
    obtain ⟨⟨hab, hba⟩, hrest⟩ := linked_pair.mp hl
    rw [List.dropLast_cons_cons] at hnext
    refine linked_pair.mpr ⟨⟨?_, ?_⟩, ih hrest ?_ ?_⟩
    · rw [hnext a List.mem_cons_self]
      exact hab
    · intro hk
      rw [hprev b List.mem_cons_self hk]
      exact hba hk
    · exact fun x hx => hnext x (List.mem_cons_of_mem _ hx)
    · exact fun x hx => hprev x (List.mem_cons_of_mem _ hx)

/-! ### The ends of a part -/

theorem exists_last (h : α) (l : List α) : ∃ p, h :: l = p ++ [l.getLastD h] := by
  cases l using List.reverseRec with
  | nil => exact ⟨[], rfl⟩
  | append_singleton l x => exact ⟨h :: l, by rw [List.getLastD_concat]; rfl⟩

theorem exists_first (l : List α) (z : α) : ∃ q, l ++ [z] = l.headD z :: q := by
  cases l with
  | nil => exact ⟨[], rfl⟩
  | cons x l => exact ⟨l ++ [z], rfl⟩

theorem headD_mem (l : List α) (z : α) : l.headD z ∈ l ++ [z] := by
  obtain ⟨q, hq⟩ := exists_first l z
  rw [hq]
  exact List.mem_cons_self

namespace Threaded

/-- A cell leads to the next one and back to the one before. -/
theorem at_cell (t : Threaded next prev kept h z (l₁ ++ x :: l₂)) :
    next x = l₂.headD z ∧ (kept x → prev x = l₁.getLastD h) := by
  obtain ⟨p, hp⟩ := exists_last h l₁
  obtain ⟨q, hq⟩ := exists_first l₂ z
  have hl := t.linked
  rw [show h :: (l₁ ++ x :: l₂ ++ [z]) = p ++ l₁.getLastD h :: x :: l₂.headD z :: q by
    rw [← hq]
    have := congrArg (· ++ x :: (l₂ ++ [z])) hp
    simpa using this] at hl
  obtain ⟨-, hl⟩ := linked_split.mp hl
  obtain ⟨⟨-, hback⟩, hl⟩ := linked_pair.mp hl
  exact ⟨(linked_pair.mp hl).1.1, hback⟩

theorem at_head (t : Threaded next prev kept h z l) : next h = l.headD z := by
  obtain ⟨q, hq⟩ := exists_first l z
  have hl := t.linked
  rw [hq] at hl
  exact (linked_pair.mp hl).1.1

theorem at_end (t : Threaded next prev kept h z l) (hk : kept z) : prev z = l.getLastD h := by
  obtain ⟨p, hp⟩ := exists_last h l
  have hl := t.linked
  rw [show h :: (l ++ [z]) = p ++ l.getLastD h :: [z] by
    have := congrArg (· ++ [z]) hp
    simpa using this] at hl
  exact (linked_pair.mp (linked_split.mp hl).2).1.2 hk

/-- A part of the list, with its neighbours. -/
theorem middle (t : Threaded next prev kept h z (l₁ ++ (m ++ l₂))) :
    Linked next prev kept (l₁.getLastD h :: (m ++ [l₂.headD z])) := by
  obtain ⟨p, hp⟩ := exists_last h l₁
  obtain ⟨q, hq⟩ := exists_first l₂ z
  have hl := t.linked
  rw [show h :: (l₁ ++ (m ++ l₂) ++ [z]) = p ++ l₁.getLastD h :: (m ++ l₂.headD z :: q) by
    rw [← hq]
    have := congrArg (· ++ (m ++ (l₂ ++ [z]))) hp
    simpa using this] at hl
  obtain ⟨-, hl⟩ := linked_split.mp hl
  rw [← List.cons_append] at hl
  exact (linked_split.mp hl).1

/-- Forth from the head or a cell. -/
theorem next_at (t : Threaded next prev kept h z l) (hl : h :: l = p ++ x :: q) :
    next x = q.headD z := by
  cases p with
  | nil =>
    obtain ⟨rfl, rfl⟩ := List.cons.inj hl
    exact t.at_head
  | cons y p =>
    obtain ⟨rfl, rfl⟩ := List.cons.inj hl
    exact t.at_cell.1

/-- Back from the end or a cell. -/
theorem prev_at (t : Threaded next prev kept h z l) (hl : l ++ [z] = p ++ x :: q) (hk : kept x) :
    prev x = p.getLastD h := by
  cases q using List.reverseRec with
  | nil =>
    obtain ⟨rfl, hx⟩ := List.append_inj' hl rfl
    obtain rfl := (List.cons.inj hx).1
    exact t.at_end hk
  | append_singleton q y =>
    rw [← List.cons_append, ← List.append_assoc] at hl
    obtain ⟨rfl, -⟩ := List.append_inj' hl rfl
    exact t.at_cell.2 hk

/-- A ring, seen from one of its cells. -/
theorem rotate (t : Threaded next prev kept h h l) (hl : h :: l = p ++ x :: q) :
    Linked next prev kept (x :: (q ++ (p ++ [x]))) := by
  have hlinked := t.linked
  rw [← List.cons_append, hl, List.append_assoc, List.cons_append, linked_split] at hlinked
  obtain ⟨hfront, hback⟩ := hlinked
  cases p with
  | nil =>
    obtain ⟨rfl, rfl⟩ := List.cons.inj hl
    exact hback
  | cons y p =>
    obtain ⟨rfl, -⟩ := List.cons.inj hl
    rw [List.cons_append, ← List.cons_append, linked_split]
    exact ⟨hback, hfront⟩

theorem congr (t : Threaded next prev kept h z l) (hnext : ∀ x ∈ h :: l, next' x = next x)
    (hprev : ∀ x ∈ l ++ [z], kept x → prev' x = prev x) : Threaded next' prev' kept h z l := by
  refine ⟨t.sources, t.targets, t.linked.congr ?_ hprev⟩
  rwa [← List.cons_append, List.dropLast_concat]

/-- The part `m` of a list is exchanged for `m'`: its neighbours are linked to `m'` and all other
links stay. -/
theorem splice (t : Threaded next prev kept h z (l₁ ++ (m ++ l₂)))
    (hs : (h :: (l₁ ++ (m' ++ l₂))).Nodup) (ht : (l₁ ++ (m' ++ l₂) ++ [z]).Nodup)
    (hmid : Linked next' prev' kept (l₁.getLastD h :: (m' ++ [l₂.headD z])))
    (hnext : ∀ x ∈ h :: (l₁ ++ l₂), x ≠ l₁.getLastD h → next' x = next x)
    (hprev : ∀ x ∈ l₁ ++ l₂ ++ [z], kept x → x ≠ l₂.headD z → prev' x = prev x) :
    Threaded next' prev' kept h z (l₁ ++ (m' ++ l₂)) := by
  obtain ⟨p, hp⟩ := exists_last h l₁
  obtain ⟨q, hq⟩ := exists_first l₂ z
  generalize l₁.getLastD h = a at hp hmid hnext
  generalize l₂.headD z = b at hq hmid hprev
  have hshape : ∀ w, h :: (l₁ ++ (w ++ l₂) ++ [z]) = p ++ a :: (w ++ b :: q) := by
    intro w
    rw [← hq]
    have := congrArg (· ++ (w ++ (l₂ ++ [z]))) hp
    simpa using this
  have hl := t.linked
  rw [hshape m] at hl
  obtain ⟨hfront, hl⟩ := linked_split.mp hl
  rw [← List.cons_append] at hl
  obtain ⟨-, hback⟩ := linked_split.mp hl
  -- the neighbours occur once as a source and once as a target
  have hsource : ∀ x ∈ p ++ (b :: q).dropLast, x ∈ h :: (l₁ ++ l₂) ∧ x ≠ a := by
    have hsplit : h :: (l₁ ++ (m ++ l₂)) = p ++ a :: (m ++ (b :: q).dropLast) := by
      rw [← hq, List.dropLast_concat]
      have := congrArg (· ++ (m ++ l₂)) hp
      simpa using this
    have hn := t.sources
    rw [hsplit] at hn
    intro x hx
    constructor
    · have hmem : x ∈ p ++ a :: (b :: q).dropLast := by
        rcases List.mem_append.mp hx with hx | hx
        · exact List.mem_append_left _ hx
        · exact List.mem_append_right _ (List.mem_cons_of_mem _ hx)
      rw [← hq, List.dropLast_concat] at hmem
      have := congrArg (· ++ l₂) hp
      simp only [List.cons_append, List.append_assoc, List.nil_append] at this
      rw [this]
      exact hmem
    · rintro rfl
      rcases List.mem_append.mp hx with hx | hx
      · exact List.disjoint_of_nodup_append hn hx List.mem_cons_self
      · exact (List.nodup_cons.mp hn.of_append_right).1 (List.mem_append_right _ hx)
  have htarget : ∀ x ∈ (p ++ [a]).tail ++ q, x ∈ l₁ ++ l₂ ++ [z] ∧ x ≠ b := by
    have htail : (p ++ [a]).tail = l₁ := by rw [← hp, List.tail_cons]
    rw [htail]
    have hn := t.targets
    rw [show l₁ ++ (m ++ l₂) ++ [z] = l₁ ++ (m ++ (l₂ ++ [z])) by simp, hq] at hn
    intro x hx
    constructor
    · rw [List.append_assoc, hq]
      rcases List.mem_append.mp hx with hx | hx
      · exact List.mem_append_left _ hx
      · exact List.mem_append_right _ (List.mem_cons_of_mem _ hx)
    · rintro rfl
      rcases List.mem_append.mp hx with hx | hx
      · exact List.disjoint_of_nodup_append hn hx
          (List.mem_append_right _ List.mem_cons_self)
      · exact (List.nodup_cons.mp hn.of_append_right.of_append_right).1 hx
  refine ⟨hs, ht, ?_⟩
  rw [hshape m', linked_split]
  constructor
  · obtain ⟨r, hr⟩ : ∃ r, p ++ [a] = h :: r := ⟨l₁, hp.symm⟩
    rw [hr] at hfront ⊢
    refine hfront.congr ?_ ?_
    · rw [← hr, List.dropLast_concat]
      intro x hx
      obtain ⟨hmem, hne⟩ := hsource x (List.mem_append_left _ hx)
      exact hnext x hmem hne
    · intro x hx hk
      obtain ⟨hmem, hne⟩ := htarget x (List.mem_append_left _ (by rw [hr]; exact hx))
      exact hprev x hmem hk hne
  · rw [← List.cons_append, linked_split]
    refine ⟨hmid, hback.congr ?_ ?_⟩
    · intro x hx
      obtain ⟨hmem, hne⟩ := hsource x (List.mem_append_right _ hx)
      exact hnext x hmem hne
    · intro x hx hk
      obtain ⟨hmem, hne⟩ := htarget x (List.mem_append_right _ hx)
      exact hprev x hmem hk hne

end Threaded
end DoubleLink
