import Mathlib.Tactic

/-! Pieces that lie end to end on a line of integers. -/
namespace Tiling

variable {γ : Type*} {start size : γ → Int} {a b e : Int} {c d : γ} {l l₁ l₂ m : List γ}

/-- The pieces fill the line from `a` to `e` in order, and none is empty. -/
def Tiled (start size : γ → Int) : Int → List γ → Int → Prop
  | a, [], e => a = e
  | a, c :: l, e => start c = a ∧ 0 < size c ∧ Tiled start size (a + size c) l e

theorem tiled_append : Tiled start size a (l₁ ++ l₂) e ↔
    ∃ b, Tiled start size a l₁ b ∧ Tiled start size b l₂ e := by
  induction l₁ generalizing a with
  | nil =>
    constructor
    · exact fun h => ⟨a, rfl, h⟩
    · rintro ⟨b, rfl, h⟩
      exact h
  | cons c l ih =>
    constructor
    · rintro ⟨hs, hpos, h⟩
      obtain ⟨b, h₁, h₂⟩ := ih.mp h
      exact ⟨b, ⟨hs, hpos, h₁⟩, h₂⟩
    · rintro ⟨b, ⟨hs, hpos, h₁⟩, h₂⟩
      exact ⟨hs, hpos, ih.mpr ⟨b, h₁, h₂⟩⟩

theorem Tiled.le (h : Tiled start size a l e) : a ≤ e := by
  induction l generalizing a with
  | nil => exact h.le
  | cons c l ih =>
    obtain ⟨-, hpos, h⟩ := h
    have := ih h
    omega

theorem Tiled.mem (h : Tiled start size a l e) (hc : c ∈ l) :
    a ≤ start c ∧ 0 < size c ∧ start c + size c ≤ e := by
  induction l generalizing a with
  | nil => cases hc
  | cons d l ih =>
    obtain ⟨hs, hpos, h⟩ := h
    rcases List.mem_cons.mp hc with rfl | hc
    · have := h.le
      omega
    · have := ih h hc
      omega

/-- What lies around a piece. -/
theorem Tiled.around (h : Tiled start size a (l₁ ++ c :: l₂) e) :
    Tiled start size a l₁ (start c) ∧ 0 < size c ∧ Tiled start size (start c + size c) l₂ e := by
  obtain ⟨b, h₁, hs, hpos, h₂⟩ := tiled_append.mp h
  subst hs
  exact ⟨h₁, hpos, h₂⟩

theorem Tiled.before (h : Tiled start size a (l₁ ++ c :: l₂) e) (hd : d ∈ l₁) :
    start d + size d ≤ start c :=
  (h.around.1.mem hd).2.2

theorem Tiled.behind (h : Tiled start size a (l₁ ++ c :: l₂) e) (hd : d ∈ l₂) :
    start c + size c ≤ start d :=
  (h.around.2.2.mem hd).1

/-- Only the last piece ends where the line does. -/
theorem Tiled.ends (h : Tiled start size a (l₁ ++ d :: l₂) e) (hd : start d + size d = e) :
    l₂ = [] := by
  obtain ⟨-, -, h₂⟩ := h.around
  cases l₂ with
  | nil => rfl
  | cons c l =>
    obtain ⟨-, hpos, h⟩ := h₂
    have := h.le
    omega

/-- Only the first piece begins where the line does. -/
theorem Tiled.begins (h : Tiled start size a (l₁ ++ d :: l₂) e) (hd : start d = a) : l₁ = [] := by
  obtain ⟨h₁, -⟩ := h.around
  cases l₁ with
  | nil => rfl
  | cons c l =>
    obtain ⟨-, hpos, h⟩ := h₁
    have := h.le
    omega

theorem Tiled.sorted (h : Tiled start size a l e) : (l.map start).Pairwise (· < ·) := by
  induction l generalizing a with
  | nil => exact List.Pairwise.nil
  | cons c l ih =>
    obtain ⟨hs, hpos, h⟩ := h
    refine List.pairwise_cons.mpr ⟨?_, ih h⟩
    intro x hx
    obtain ⟨d, hd, rfl⟩ := List.mem_map.mp hx
    have := (h.mem hd).1
    omega

/-- Two pieces that share a place are one. -/
theorem Tiled.unique (h : Tiled start size a l e) (hc : c ∈ l) (hd : d ∈ l)
    (hcd : start c < start d + size d) (hdc : start d < start c + size c) : c = d := by
  obtain ⟨l₁, l₂, rfl⟩ := List.append_of_mem hc
  rcases List.mem_append.mp hd with hd | hd
  · have := h.before hd
    omega
  · rcases List.mem_cons.mp hd with rfl | hd
    · rfl
    · have := h.behind hd
      omega

/-- The other pieces begin elsewhere. -/
theorem Tiled.start_ne (h : Tiled start size a (l₁ ++ c :: l₂) e) (hd : d ∈ l₁ ++ l₂) :
    start d ≠ start c := by
  rcases List.mem_append.mp hd with hd | hd
  · have h₁ := h.before hd
    have h₂ := (h.around.1.mem hd).2.1
    omega
  · have h₁ := h.behind hd
    have h₂ := h.around.2.1
    omega

/-- Part of the pieces is exchanged for others that fill the same place. -/
theorem Tiled.splice (h : Tiled start size a (l₁ ++ (l ++ l₂)) e)
    (hm : ∀ b b', Tiled start size b l b' → Tiled start size b m b') :
    Tiled start size a (l₁ ++ (m ++ l₂)) e := by
  obtain ⟨b, h₁, h⟩ := tiled_append.mp h
  obtain ⟨b', h, h₂⟩ := tiled_append.mp h
  exact tiled_append.mpr ⟨b, h₁, tiled_append.mpr ⟨b', hm b b' h, h₂⟩⟩

end Tiling
