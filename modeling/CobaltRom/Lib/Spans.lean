import Mathlib.Data.List.Basic
import Mathlib.Data.List.Pairwise

/-! Spans of addresses and lists of spans that follow one another. -/

/-- The addresses from `lo` up to `hi`, without `hi`. -/
structure Span where
  lo : Nat
  hi : Nat
  le : lo ≤ hi

namespace Span

variable {a b c : Span} {l m : List Span}

instance : Membership Nat Span := ⟨fun a x => a.lo ≤ x ∧ x < a.hi⟩

theorem mem_iff {x : Nat} : x ∈ a ↔ a.lo ≤ x ∧ x < a.hi := Iff.rfl

/-- `a` ends where `b` begins, or earlier. -/
def Before (a b : Span) : Prop := a.hi ≤ b.lo

def Apart (a b : Span) : Prop := a.Before b ∨ b.Before a

/-- No address is in both. -/
def Disjoint (a b : Span) : Prop := ∀ x, ¬ (x ∈ a ∧ x ∈ b)

/-- An empty span strictly inside another: it shares no address with it, and yet neither
is before the other. -/
def Inside (a b : Span) : Prop := a.lo = a.hi ∧ b.lo < a.lo ∧ a.lo < b.hi

instance (a b : Span) : Decidable (a.Before b) := inferInstanceAs (Decidable (a.hi ≤ b.lo))

instance (a b : Span) : Decidable (a.Apart b) :=
  inferInstanceAs (Decidable (a.Before b ∨ b.Before a))

instance (a b : Span) : Decidable (a.Inside b) :=
  inferInstanceAs (Decidable (a.lo = a.hi ∧ b.lo < a.lo ∧ a.lo < b.hi))

theorem Before.trans (h : a.Before b) (h' : b.Before c) : a.Before c :=
  Nat.le_trans h (Nat.le_trans b.le h')

theorem Apart.symm (h : a.Apart b) : b.Apart a := Or.symm h

theorem Disjoint.symm (h : a.Disjoint b) : b.Disjoint a := fun x hx => h x hx.symm

theorem Apart.disjoint (h : a.Apart b) : a.Disjoint b := by
  rintro x ⟨ha, hb⟩
  rw [mem_iff] at ha hb
  unfold Apart Before at h
  omega

theorem Apart.not_inside (h : a.Apart b) : ¬ a.Inside b := by
  unfold Apart Before at h
  unfold Inside
  omega

theorem not_inside_self (a : Span) : ¬ a.Inside a := fun h => Nat.lt_irrefl _ h.2.1

/-- Sharing no address is being apart, but for an empty span inside another. -/
theorem disjoint_iff : a.Disjoint b ↔ a.Apart b ∨ a.Inside b ∨ b.Inside a := by
  constructor
  · intro h
    by_contra hn
    push Not at hn
    obtain ⟨hap, hin, hin'⟩ := hn
    have ha := a.le
    have hb := b.le
    unfold Apart Before at hap
    unfold Inside at hin hin'
    refine h (max a.lo b.lo) ?_
    rw [mem_iff, mem_iff]
    omega
  · rintro (h | h | h)
    · exact h.disjoint
    · rintro x ⟨hx, -⟩
      rw [mem_iff] at hx
      have := h.1
      omega
    · rintro x ⟨-, hx⟩
      rw [mem_iff] at hx
      have := h.1
      omega

/-- In a row every end lies before the end of the last. -/
theorem hi_le_last (hl : l.Pairwise Before) (hlast : l.getLast? = some b) (ha : a ∈ l) :
    a.hi ≤ b.hi := by
  obtain ⟨m, rfl⟩ := List.getLast?_eq_some_iff.mp hlast
  rcases List.mem_append.mp ha with ha | ha
  · exact Nat.le_trans ((List.pairwise_append.mp hl).2.2 a ha b (List.mem_singleton.mpr rfl)) b.le
  · exact Nat.le_of_eq (congrArg hi (List.mem_singleton.mp ha))

end Span
