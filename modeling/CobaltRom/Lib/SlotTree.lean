import Mathlib.Tactic

/-! Rooted trees in which a node keeps its children in numbered slots: what
filling and emptying a slot does to the set of nodes. -/
namespace SlotTree

variable {ν ι : Type} {kids kids' : ν → ι → Option ν} {root d e j x y : ν} {k : ι}
  {live : ν → Prop}

/-- `y` is `x` or below it. -/
inductive Desc (kids : ν → ι → Option ν) (x : ν) : ν → Prop where
  | refl : Desc kids x x
  | step {d y : ν} {k : ι} : Desc kids x d → kids d k = some y → Desc kids x y

structure IsTree (kids : ν → ι → Option ν) (root : ν) (live : ν → Prop) : Prop where
  root_live : live root
  kid_live : ∀ d k x, live d → kids d k = some x → live x
  reach : ∀ x, live x → Desc kids root x
  parent : ∀ d k e l x, live d → live e → kids d k = some x → kids e l = some x → d = e ∧ k = l
  root_top : ∀ d k, live d → kids d k ≠ some root

theorem Desc.trans (h : Desc kids x y) (h' : Desc kids y d) : Desc kids x d := by
  induction h' with
  | refl => exact h
  | step _ hk ih => exact .step ih hk

/-- A proper descendant is below one of the children. -/
theorem Desc.head (h : Desc kids x y) : x = y ∨ ∃ c k, kids x k = some c ∧ Desc kids c y := by
  induction h with
  | refl => exact Or.inl rfl
  | step _ hk ih =>
    rcases ih with rfl | ⟨c, l, hc, hd⟩
    · exact Or.inr ⟨_, _, hk, .refl⟩
    · exact Or.inr ⟨c, l, hc, .step hd hk⟩

theorem IsTree.desc_live (h : IsTree kids root live) (hx : live x) (hd : Desc kids x y) :
    live y := by
  induction hd with
  | refl => exact hx
  | step _ hk ih => exact h.kid_live _ _ _ ih hk

theorem IsTree.congr (h : IsTree kids root live)
    (hk : ∀ d, live d → kids' d = kids d) : IsTree kids' root live := by
  refine ⟨h.root_live, ?_, ?_, ?_, ?_⟩
  · intro d k x hd hx
    rw [hk d hd] at hx
    exact h.kid_live d k x hd hx
  · intro x hx
    have hr := h.reach x hx
    induction hr with
    | refl => exact .refl
    | step hd hs ih =>
      have hl := h.desc_live h.root_live hd
      exact .step (ih hl) (by rw [hk _ hl]; exact hs)
  · intro d k e l x hd he hx hy
    rw [hk d hd] at hx
    rw [hk e he] at hy
    exact h.parent d k e l x hd he hx hy
  · intro d k hd hr
    rw [hk d hd] at hr
    exact h.root_top d k hd hr

/-- Filling an empty slot with a new childless node. -/
theorem IsTree.link (h : IsTree kids root live) (hd : live d) (hx : ¬ live x)
    (hset : kids' d k = some x) (hleaf : ∀ l, kids' x l = none)
    (hother : ∀ e l, live e → ¬ (e = d ∧ l = k) → kids' e l = kids e l) (hfree : kids d k = none) :
    IsTree kids' root (fun y => live y ∨ y = x) := by
  have hold : ∀ e l y, live e → kids' e l = some y →
      (kids e l = some y ∧ live y) ∨ (e = d ∧ l = k ∧ y = x) := by
    intro e l y he hy
    by_cases hc : e = d ∧ l = k
    · obtain ⟨rfl, rfl⟩ := hc
      rw [hset] at hy
      exact Or.inr ⟨rfl, rfl, (Option.some.inj hy).symm⟩
    · rw [hother e l he hc] at hy
      exact Or.inl ⟨hy, h.kid_live e l y he hy⟩
  have hreach : ∀ y, live y → Desc kids' root y := by
    intro y hy
    have hr := h.reach y hy
    induction hr with
    | refl => exact .refl
    | @step e y l he hs ih =>
      have hl := h.desc_live h.root_live he
      refine .step (k := l) (ih hl) ?_
      rw [hother e l hl ?_]
      · exact hs
      · rintro ⟨rfl, rfl⟩
        rw [hfree] at hs
        cases hs
  refine ⟨Or.inl h.root_live, ?_, ?_, ?_, ?_⟩
  · rintro e l y (he | rfl) hy
    · rcases hold e l y he hy with ⟨_, hl⟩ | ⟨_, _, rfl⟩
      · exact Or.inl hl
      · exact Or.inr rfl
    · rw [hleaf] at hy
      cases hy
  · rintro y (hy | rfl)
    · exact hreach y hy
    · exact .step (hreach d hd) hset
  · rintro e l e' l' y (he | rfl) (he' | rfl) hy hy'
    · rcases hold e l y he hy with ⟨h1, hl1⟩ | ⟨rfl, rfl, rfl⟩
      · rcases hold e' l' y he' hy' with ⟨h2, _⟩ | ⟨_, _, rfl⟩
        · exact h.parent e l e' l' y he he' h1 h2
        · exact absurd hl1 hx
      · rcases hold e' l' y he' hy' with ⟨_, hl2⟩ | ⟨rfl, rfl, _⟩
        · exact absurd hl2 hx
        · exact ⟨rfl, rfl⟩
    · rw [hleaf] at hy'
      cases hy'
    · rw [hleaf] at hy
      cases hy
    · rw [hleaf] at hy
      cases hy
  · rintro e l (he | rfl) hr
    · rcases hold e l root he hr with ⟨h1, _⟩ | ⟨_, _, hrx⟩
      · exact h.root_top e l he h1
      · exact hx (hrx ▸ h.root_live)
    · rw [hleaf] at hr
      cases hr

theorem IsTree.root_not_desc (h : IsTree kids root live) (hd : live d) (hj : kids d k = some j) :
    ¬ Desc kids j root := by
  intro hr
  have hjl := h.kid_live d k j hd hj
  generalize hy : root = y at hr
  cases hr with
  | refl => exact h.root_top d k hd (hy ▸ hj)
  | step he hs =>
    subst hy
    exact h.root_top _ _ (h.desc_live hjl he) hs

/-- A node is not below its own child. -/
theorem IsTree.not_desc_kid (h : IsTree kids root live) (hd : live d) (hj : kids d k = some j) :
    ¬ Desc kids j d := by
  intro hjd
  have hjl := h.kid_live d k j hd hj
  -- no node is below `j`, by induction on the path from the root: the parent of a
  -- node below `j` would be below `j` as well
  have hall : ∀ y, Desc kids root y → ¬ Desc kids j y := by
    intro y hy
    induction hy with
    | refl => exact h.root_not_desc hd hj
    | @step e y l he hs ih =>
      have hel := h.desc_live h.root_live he
      intro hjy
      cases hjy with
      | refl => exact ih ((h.parent _ _ _ _ _ hel hd hs hj).1 ▸ hjd)
      | @step e' _ l' he' hs' =>
        have he'l := h.desc_live hjl he'
        exact ih ((h.parent _ _ _ _ _ hel he'l hs hs').1 ▸ he')
  exact hall d (h.reach d hd) hjd

/-- Two children of one node have nothing below them in common. -/
theorem IsTree.kids_disjoint (h : IsTree kids root live) (hd : live d) {l : ι}
    (hx : kids d k = some x) (hy : kids d l = some y) {z : ν} (hxz : Desc kids x z)
    (hyz : Desc kids y z) : k = l := by
  have hxl := h.kid_live d k x hd hx
  have hyl := h.kid_live d l y hd hy
  induction hxz with
  | refl =>
    cases hyz with
    | refl => exact (h.parent _ _ _ _ _ hd hd hx hy).2
    | step he hs =>
      have hed := (h.parent _ _ _ _ _ (h.desc_live hyl he) hd hs hx).1
      exact absurd (hed ▸ he) (h.not_desc_kid hd hy)
  | step he hs ih =>
    cases hyz with
    | refl =>
      have hed := (h.parent _ _ _ _ _ (h.desc_live hxl he) hd hs hy).1
      exact absurd (hed ▸ he) (h.not_desc_kid hd hx)
    | step he' hs' =>
      have hee := (h.parent _ _ _ _ _ (h.desc_live hyl he') (h.desc_live hxl he) hs' hs).1
      exact ih (hee ▸ he')

/-- Emptying a slot removes the subtree that hung there. -/
theorem IsTree.unlink (h : IsTree kids root live) (hd : live d) (hj : kids d k = some j)
    (hclr : kids' d k = none)
    (hother : ∀ e l, live e → ¬ (e = d ∧ l = k) → kids' e l = kids e l) :
    IsTree kids' root (fun y => live y ∧ ¬ Desc kids j y) := by
  have hsub : ∀ e l y, live e → kids' e l = some y → kids e l = some y ∧ ¬ (e = d ∧ l = k) := by
    intro e l y he hy
    have hc : ¬ (e = d ∧ l = k) := by
      rintro ⟨rfl, rfl⟩
      rw [hclr] at hy
      cases hy
    exact ⟨by rwa [hother e l he hc] at hy, hc⟩
  refine ⟨⟨h.root_live, h.root_not_desc hd hj⟩, ?_, ?_, ?_, ?_⟩
  · rintro e l y ⟨he, hne⟩ hy
    obtain ⟨hy, hc⟩ := hsub e l y he hy
    refine ⟨h.kid_live e l y he hy, ?_⟩
    intro hjy
    have hjl := h.kid_live d k j hd hj
    cases hjy with
    | refl => exact hc ((h.parent _ _ _ _ _ he hd hy hj))
    | step he' hs' => exact hne ((h.parent _ _ _ _ _ he (h.desc_live hjl he') hy hs').1 ▸ he')
  · rintro y ⟨hy, hny⟩
    have hr := h.reach y hy
    induction hr with
    | refl => exact .refl
    | @step e y l he hs ih =>
      have hel := h.desc_live h.root_live he
      have hne : ¬ Desc kids j e := fun hje => hny (.step hje hs)
      refine .step (k := l) (ih hel hne) ?_
      rw [hother e l hel ?_]
      · exact hs
      · rintro ⟨rfl, rfl⟩
        rw [hj] at hs
        cases hs
        exact hny .refl
  · rintro e l e' l' y ⟨he, _⟩ ⟨he', _⟩ hy hy'
    exact h.parent e l e' l' y he he' (hsub e l y he hy).1 (hsub e' l' y he' hy').1
  · rintro e l ⟨he, _⟩ hr
    exact h.root_top e l he (hsub e l root he hr).1

end SlotTree
