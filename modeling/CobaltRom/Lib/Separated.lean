import Mathlib.Data.List.Basic

/-! Lists read as parts between separators: the parts that are not empty, the
separators behind the last of them, and runs of separators made one. -/
namespace Separated

variable {α : Type*} [DecidableEq α] {sep a : α} {c l l' : List α} {cs : List (List α)}

/-- The non-empty stretches between separators. -/
def parts (sep : α) (l : List α) : List (List α) := (l.splitOn sep).filter fun c => !c.isEmpty

/-- The number of separators behind the last part. -/
def trail (sep : α) : List α → Nat
  | [] => 0
  | a :: l => if ∀ x ∈ a :: l, x = sep then l.length + 1 else trail sep l

/-- Every run of separators replaced by one. -/
def squeeze (sep : α) : List α → List α
  | [] => []
  | a :: l => if a = sep ∧ l.head? = some sep then squeeze sep l else a :: squeeze sep l

/-- A separator in front of every part. -/
def leading (sep : α) (cs : List (List α)) : List α := cs.flatMap (sep :: ·)

theorem parts_append_cons (sep : α) (l l' : List α) :
    parts sep (l ++ sep :: l') = parts sep l ++ parts sep l' := by
  rw [parts, List.splitOn_append_cons_self, List.filter_append, ← parts, ← parts]

theorem parts_of_not_mem (h : sep ∉ c) : parts sep c = if c = [] then [] else [c] := by
  rw [parts, List.splitOn_eq_singleton h]
  cases c <;> rfl

@[simp] theorem parts_nil : parts sep [] = [] := rfl

@[simp] theorem parts_cons_sep (l : List α) : parts sep (sep :: l) = parts sep l :=
  parts_append_cons sep [] l

/-- Nothing but separators has no parts. -/
theorem parts_eq_nil : parts sep l = [] ↔ ∀ x ∈ l, x = sep := by
  induction l with
  | nil => simp
  | cons a l ih =>
    by_cases ha : a = sep
    · subst ha
      rw [parts_cons_sep, ih]
      simp
    · simp only [List.mem_cons, forall_eq_or_imp, ha, false_and, iff_false]
      rw [parts, List.splitOn_cons_eq_if_modifyHead, if_neg (by simpa using ha)]
      obtain ⟨c, cs, hc⟩ := List.exists_cons_of_ne_nil (List.splitOn_ne_nil sep l)
      rw [hc]
      simp

theorem trail_cons_of_ne (ha : a ≠ sep) (l : List α) : trail sep (a :: l) = trail sep l := by
  rw [trail, if_neg]
  intro h
  exact ha (h a List.mem_cons_self)

theorem trail_cons_of_parts (a : α) (h : parts sep l ≠ []) :
    trail sep (a :: l) = trail sep l := by
  rw [trail, if_neg]
  intro hall
  exact h (parts_eq_nil.mpr fun x hx => hall x (List.mem_cons_of_mem _ hx))

theorem trail_of_parts_nil (h : parts sep l = []) : trail sep l = l.length := by
  cases l with
  | nil => rfl
  | cons a l => rw [trail, if_pos (parts_eq_nil.mp h), List.length_cons]

/-- Replacing the runs changes no part, behind any stretch. -/
theorem parts_append_squeeze (sep : α) (l : List α) : ∀ c : List α,
    parts sep (c ++ squeeze sep l) = parts sep (c ++ l) := by
  induction l with
  | nil => exact fun _ => rfl
  | cons a l ih =>
    intro c
    rw [squeeze]
    by_cases hrun : a = sep ∧ l.head? = some sep
    · rw [if_pos hrun, ih c]
      obtain ⟨rfl, hhead⟩ := hrun
      cases l with
      | nil => cases hhead
      | cons b l =>
        obtain rfl : b = a := Option.some.inj hhead
        rw [parts_append_cons, parts_append_cons, parts_cons_sep]
    · rw [if_neg hrun]
      have h := ih (c ++ [a])
      rwa [List.append_assoc, List.append_assoc] at h

theorem parts_squeeze (sep : α) (l : List α) : parts sep (squeeze sep l) = parts sep l :=
  parts_append_squeeze sep l []

/-- Of the separators at the end one is left. -/
theorem trail_squeeze (sep : α) (l : List α) : trail sep (squeeze sep l) = min (trail sep l) 1 := by
  induction l with
  | nil => rfl
  | cons a l ih =>
    rw [squeeze]
    by_cases hrun : a = sep ∧ l.head? = some sep
    · rw [if_pos hrun, ih]
      obtain ⟨rfl, hhead⟩ := hrun
      by_cases hp : parts a l = []
      · rw [trail_of_parts_nil hp, trail_of_parts_nil ((parts_cons_sep l).trans hp)]
        cases l with
        | nil => cases hhead
        | cons b l => simp
      · rw [trail_cons_of_parts a hp]
    · rw [if_neg hrun]
      by_cases hp : parts sep l = []
      · cases l with
        | nil =>
          rw [squeeze, trail]
          split <;> rfl
        | cons b l =>
          have hb : b = sep := parts_eq_nil.mp hp b List.mem_cons_self
          have ha : a ≠ sep := fun ha => hrun ⟨ha, congrArg some hb⟩
          rw [trail_cons_of_ne ha, trail_cons_of_ne ha, ih]
      · rw [trail_cons_of_parts a hp, trail_cons_of_parts a (by rwa [parts_squeeze]), ih]

/-- The parts of a list built from parts. -/
theorem parts_leading (h : ∀ c ∈ cs, c ≠ [] ∧ sep ∉ c) :
    parts sep (leading sep cs) = cs := by
  induction cs with
  | nil => rfl
  | cons c cs ih =>
    obtain ⟨hne, hc⟩ := h c List.mem_cons_self
    have ih := ih fun d hd => h d (List.mem_cons_of_mem _ hd)
    rw [leading, List.flatMap_cons, ← leading, List.cons_append, parts_cons_sep]
    cases cs with
    | nil =>
      rw [show leading sep [] = [] from rfl, List.append_nil, parts_of_not_mem hc, if_neg hne]
    | cons d cs =>
      rw [leading, List.flatMap_cons, List.cons_append] at ih ⊢
      rw [parts_append_cons, parts_of_not_mem hc, if_neg hne, List.singleton_append,
        ← parts_cons_sep, ih]

theorem trail_of_not_mem (h : sep ∉ l) : trail sep l = 0 := by
  induction l with
  | nil => rfl
  | cons a l ih =>
    rw [List.mem_cons, not_or] at h
    rw [trail_cons_of_ne (Ne.symm h.1), ih h.2]

theorem trail_append (hc : c ≠ []) (h : sep ∉ c) (l : List α) : trail sep (l ++ c) = 0 := by
  induction l with
  | nil => exact trail_of_not_mem h
  | cons a l ih =>
    have hparts : parts sep (l ++ c) ≠ [] := by
      intro hnil
      obtain ⟨x, hx⟩ := List.exists_mem_of_ne_nil c hc
      have hsep := parts_eq_nil.mp hnil x (List.mem_append_right _ hx)
      exact h (hsep ▸ hx)
    rw [List.cons_append, trail_cons_of_parts a hparts, ih]

theorem trail_leading (hcs : cs ≠ []) (h : ∀ c ∈ cs, c ≠ [] ∧ sep ∉ c) :
    trail sep (leading sep cs) = 0 := by
  obtain ⟨cs, c, rfl⟩ := List.eq_nil_or_concat cs |>.resolve_left hcs
  obtain ⟨hne, hc⟩ := h c (by simp)
  rw [leading, List.concat_eq_append, List.flatMap_append, List.flatMap_singleton,
    show sep :: c = [sep] ++ c from rfl, ← List.append_assoc]
  exact trail_append hne hc _

end Separated
