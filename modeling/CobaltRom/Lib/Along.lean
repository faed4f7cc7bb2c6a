import Mathlib.Order.Defs.Unbundled

/-! Programs over a state: runs in sequence, and programs that move their state along a
preorder. -/

theorem run_bind_of {σ α β : Type} {p : StateM σ α} {f : α → StateM σ β} {s t : σ} {a : α}
    (h : p.run s = (a, t)) : (p >>= f).run s = (f a).run t := by
  rw [StateT.run_bind, h]
  rfl

theorem run_bind_snd {σ α β : Type} (p : StateM σ α) (f : α → StateM σ β) (s : σ) :
    ((p >>= f).run s).2 = ((f (p.run s).1).run (p.run s).2).2 := rfl

theorem run_pure_snd {σ α : Type} (a : α) (s : σ) : ((pure a : StateM σ α).run s).2 = s := rfl

/-- `p` ends in a state that stands in `R` to the one it began in. -/
def Along {σ α : Type} (R : σ → σ → Prop) (p : StateM σ α) : Prop := ∀ s, R s (p.run s).2

namespace Along

variable {σ α β : Type} {R : σ → σ → Prop} {p q : StateM σ α} {c : Prop} [Decidable c]

theorem of_run {s t : σ} {a : α} (h : Along R p) (hr : p.run s = (a, t)) : R s t := by
  have := h s
  rwa [hr] at this

theorem run_eq (h : Along R p) (s : σ) : ∃ a t, p.run s = (a, t) ∧ R s t := ⟨_, _, rfl, h s⟩

theorem pure [Std.Refl R] (a : α) : Along R (Pure.pure a) := fun s => Std.Refl.refl s

theorem get [Std.Refl R] : Along R (MonadState.get : StateM σ σ) := fun s => Std.Refl.refl s

theorem modify {f : σ → σ} (h : ∀ s, R s (f s)) :
    Along R (modifyGet fun s => (PUnit.unit, f s) : StateM σ PUnit) := h

theorem bind [IsTrans σ R] {f : α → StateM σ β} (hp : Along R p) (hf : ∀ a, Along R (f a)) :
    Along R (p >>= f) :=
  fun s => IsTrans.trans s _ _ (hp s) (hf _ _)

theorem map {f : α → β} (hp : Along R p) : Along R (f <$> p) := hp

theorem ite (hp : c → Along R p) (hq : ¬ c → Along R q) : Along R (if c then p else q) := by
  by_cases h : c
  · rw [if_pos h]
    exact hp h
  · rw [if_neg h]
    exact hq h

end Along
