import Mathlib.Tactic

/-! Forests as their first-child, next-sibling links: each node has its first kid and its
next peer. -/

inductive Forest (α : Type*)
  | nil
  | node (a : α) (kids peer : Forest α)

namespace Forest

variable {α : Type*}

/-- The nodes in depth-first order, each before its kids, kids before peers. -/
def toList : Forest α → List α
  | nil => []
  | node a kids peer => a :: (toList kids ++ toList peer)

/-- The number of nodes. -/
def size : Forest α → Nat
  | nil => 0
  | node _ kids peer => size kids + 1 + size peer

def isNil : Forest α → Bool
  | nil => true
  | node _ _ _ => false

def map {β : Type*} (f : α → β) : Forest α → Forest β
  | nil => nil
  | node a kids peer => node (f a) (map f kids) (map f peer)

/-- The nodes a walk without a stack meets: down to the kids where there are any, else on to the
peer. -/
def descent : Forest α → List α
  | nil => []
  | node a kids peer => a :: if kids.isNil then descent peer else descent kids

/-- No node with kids has a peer behind it. -/
def KidsLast : Forest α → Prop
  | nil => True
  | node _ kids peer => (kids = nil ∨ peer = nil) ∧ KidsLast kids ∧ KidsLast peer

/-- Each node together with a value of its parent, `p` at the top. -/
def withParent {β : Type*} (f : α → β) (p : β) : Forest α → Forest (α × β)
  | nil => nil
  | node a kids peer => node (a, p) (withParent f (f a) kids) (withParent f p peer)

/-- The nodes of the top level, each with its kids. -/
def tops : Forest α → List (α × Forest α)
  | nil => []
  | node a kids peer => (a, kids) :: tops peer

theorem toList_map {β : Type*} (f : α → β) (t : Forest α) : (t.map f).toList = t.toList.map f := by
  induction t with
  | nil => rfl
  | node a kids peer hk hp => simp only [map, toList, List.map_cons, List.map_append, hk, hp]

theorem isNil_iff {t : Forest α} : t.isNil = true ↔ t = nil := by
  cases t <;> simp [isNil]

theorem size_eq_length (t : Forest α) : t.size = t.toList.length := by
  induction t with
  | nil => rfl
  | node a kids peer hk hp =>
    simp only [size, toList, List.length_cons, List.length_append, hk, hp]
    omega

theorem size_eq_zero {t : Forest α} : t.size = 0 ↔ t = nil := by
  cases t <;> simp [size]

theorem withParent_isNil {β : Type*} (f : α → β) (p : β) (t : Forest α) :
    (t.withParent f p).isNil = t.isNil := by
  cases t <;> rfl

theorem withParent_kidsLast {β : Type*} (f : α → β) (p : β) (t : Forest α) :
    (t.withParent f p).KidsLast ↔ t.KidsLast := by
  induction t generalizing p with
  | nil => rfl
  | node a kids peer hk hp =>
    simp only [withParent, KidsLast, hk, hp, ← isNil_iff, withParent_isNil]

/-- The walk repeats nothing. -/
theorem descent_sublist (t : Forest α) : t.descent.Sublist t.toList := by
  induction t with
  | nil => exact List.Sublist.refl _
  | node a kids peer hk hp =>
    rw [descent, toList]
    refine List.Sublist.cons_cons a ?_
    by_cases h : kids.isNil = true
    · rw [if_pos h]
      exact hp.trans (List.sublist_append_right _ _)
    · rw [if_neg h]
      exact hk.trans (List.sublist_append_left _ _)

/-- It meets every node just where nothing stands behind a node with kids. -/
theorem descent_eq_iff (t : Forest α) : t.descent = t.toList ↔ t.KidsLast := by
  induction t with
  | nil => exact iff_of_true rfl trivial
  | node a kids peer hk hp =>
    rw [descent, toList, KidsLast, List.cons.injEq, eq_self, true_and]
    by_cases h : kids = nil
    · subst h
      rw [if_pos (isNil_iff.2 rfl), toList, List.nil_append, hp]
      exact ⟨fun h => ⟨Or.inl rfl, trivial, h⟩, fun h => h.2.2⟩
    · rw [if_neg (by rwa [isNil_iff])]
      constructor
      · intro he
        have hlen := congrArg List.length he
        have hle := (descent_sublist kids).length_le
        rw [List.length_append, ← size_eq_length peer] at hlen
        have hpeer : peer = nil := size_eq_zero.1 (by omega)
        subst hpeer
        rw [toList, List.append_nil, hk] at he
        exact ⟨Or.inr rfl, he, trivial⟩
      · rintro ⟨hor, hkids, -⟩
        obtain rfl := hor.resolve_left h
        rw [hk.2 hkids, toList, List.append_nil]

end Forest
