import Mathlib.Tactic

/-! Programs over a state that may fault or run out of turns: runs in sequence, and what holds
wherever they end. -/
namespace Hoare

section Runs

variable {σ α β : Type} {p : StateT σ Option α} {f : α → StateT σ Option β} {s t u : σ} {a : α}
  {b : β}

theorem run_bind_some (h : p.run s = some (a, t)) : (p >>= f).run s = (f a).run t := by
  rw [StateT.run_bind, h]
  rfl

/-- Programs that run alike may stand for each other. -/
theorem run_bind_congr {p' : StateT σ Option α} (h : p.run s = p'.run s) :
    (p >>= f).run s = (p' >>= f).run s := by
  rw [StateT.run_bind, StateT.run_bind, h]

theorem run_get_bind (f : σ → StateT σ Option β) (s : σ) :
    ((get : StateT σ Option σ) >>= f).run s = (f s).run s := rfl

theorem run_modify_bind (g : σ → σ) (f : PUnit → StateT σ Option β) (s : σ) :
    ((modify g : StateT σ Option PUnit) >>= f).run s = (f ⟨⟩).run (g s) := rfl

/-- A sequence ends only where both parts do. -/
theorem of_run_bind (h : (p >>= f).run s = some (b, u)) :
    ∃ a t, p.run s = some (a, t) ∧ (f a).run t = some (b, u) := by
  rw [StateT.run_bind] at h
  obtain ⟨⟨a, t⟩, hp, hf⟩ := Option.bind_eq_some_iff.mp h
  exact ⟨a, t, hp, hf⟩

theorem of_run_pure {a' : α} (h : (pure a : StateT σ Option α).run s = some (a', t)) :
    a' = a ∧ t = s := by
  cases h
  exact ⟨rfl, rfl⟩

end Runs

/-- Wherever the program ends, the state stands in `R` to the one it began in. -/
def Keeps {σ α : Type} (R : σ → σ → Prop) (p : StateT σ Option α) : Prop :=
  ∀ s a t, p.run s = some (a, t) → R s t

namespace Keeps

variable {σ α β : Type} {R : σ → σ → Prop} {p p' : StateT σ Option α} {c : Prop} [Decidable c]

theorem pure [Std.Refl R] (a : α) : Keeps R (Pure.pure a) := by
  intro s a' t h
  obtain ⟨-, rfl⟩ := of_run_pure h
  exact Std.Refl.refl t

theorem get [Std.Refl R] : Keeps R (MonadState.get : StateT σ Option σ) := by
  intro s a t h
  cases h
  exact Std.Refl.refl s

theorem failure : Keeps R (Alternative.failure : StateT σ Option α) := by
  intro s a t h
  cases h

theorem bind [IsTrans σ R] {f : α → StateT σ Option β} (hp : Keeps R p) (hf : ∀ a, Keeps R (f a)) :
    Keeps R (p >>= f) := by
  intro s b u h
  obtain ⟨a, t, hps, hft⟩ := of_run_bind h
  exact IsTrans.trans s t u (hp s a t hps) (hf a t b u hft)

theorem ite (hp : c → Keeps R p) (hp' : ¬ c → Keeps R p') : Keeps R (if c then p else p') := by
  by_cases h : c
  · rw [if_pos h]
    exact hp h
  · rw [if_neg h]
    exact hp' h

end Keeps

/-- The program ends wherever it begins. -/
def Terminates {σ α : Type} (p : StateT σ Option α) : Prop := ∀ s, ∃ a t, p.run s = some (a, t)

namespace Terminates

variable {σ α β : Type} {p p' : StateT σ Option α} {c : Prop} [Decidable c]

theorem pure (a : α) : Terminates (Pure.pure a : StateT σ Option α) := fun s => ⟨a, s, rfl⟩

theorem get : Terminates (MonadState.get : StateT σ Option σ) := fun s => ⟨s, s, rfl⟩

theorem bind {f : α → StateT σ Option β} (hp : Terminates p) (hf : ∀ a, Terminates (f a)) :
    Terminates (p >>= f) := by
  intro s
  obtain ⟨a, t, hps⟩ := hp s
  obtain ⟨b, u, hft⟩ := hf a t
  exact ⟨b, u, (run_bind_some hps).trans hft⟩

theorem ite (hp : c → Terminates p) (hp' : ¬ c → Terminates p') :
    Terminates (if c then p else p') := by
  by_cases h : c
  · rw [if_pos h]
    exact hp h
  · rw [if_neg h]
    exact hp' h

end Terminates

end Hoare
