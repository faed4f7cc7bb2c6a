import CobaltRom.Lib.Along

/-! Programs over two kinds of state that do the same, the one seen through a view as the other. -/

/-- Seen through `view`, `p` does what `q` does. -/
def Simulates {σ τ α : Type} (view : σ → τ) (p : StateM σ α) (q : StateM τ α) : Prop :=
  ∀ s, (p.run s).1 = (q.run (view s)).1 ∧ view (p.run s).2 = (q.run (view s)).2

namespace Simulates

variable {σ τ α β : Type} {view : σ → τ} {p p' : StateM σ α} {q q' : StateM τ α} {c : Prop}
  [Decidable c]

theorem pure (a : α) : Simulates view (Pure.pure a) (Pure.pure a) := fun _ => ⟨rfl, rfl⟩

theorem bind {f : α → StateM σ β} {g : α → StateM τ β} (hp : Simulates view p q)
    (hf : ∀ a, Simulates view (f a) (g a)) : Simulates view (p >>= f) (q >>= g) := by
  intro s
  obtain ⟨a, s₁, hps⟩ : ∃ a s₁, p.run s = (a, s₁) := ⟨_, _, rfl⟩
  obtain ⟨a', t, hqs⟩ : ∃ a' t, q.run (view s) = (a', t) := ⟨_, _, rfl⟩
  have hfirst := hp s
  rw [hps, hqs] at hfirst
  obtain ⟨rfl, rfl⟩ := hfirst
  rw [run_bind_of hps, run_bind_of hqs]
  exact hf a s₁

theorem ite (hp : c → Simulates view p q) (hp' : ¬ c → Simulates view p' q') :
    Simulates view (if c then p else p') (if c then q else q') := by
  by_cases h : c
  · rw [if_pos h, if_pos h]
    exact hp h
  · rw [if_neg h, if_neg h]
    exact hp' h

/-- What a run of `q` gives, a run of `p` gives. -/
theorem run_eq {s : σ} {a : α} {t : τ} (h : Simulates view p q) (hq : q.run (view s) = (a, t)) :
    (p.run s).1 = a ∧ view (p.run s).2 = t := by
  have := h s
  rwa [hq] at this

end Simulates
