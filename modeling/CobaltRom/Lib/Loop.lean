import Mathlib.Tactic

/-! `while` loops whose body may fault, run with a bound on the number of turns. -/
namespace Loop

variable {σ : Type*} {cond : σ → Bool} {body : σ → Option σ} {fuel n : Nat} {s t : σ}

/-- `while (cond s) s = body s`; `none` when the body faults or the turns run out. -/
def whileM (cond : σ → Bool) (body : σ → Option σ) : Nat → σ → Option σ
  | 0, s => if cond s then none else some s
  | fuel + 1, s => if cond s then (body s).bind (whileM cond body fuel) else some s

theorem whileM_stop (h : cond s = false) : whileM cond body fuel s = some s := by
  cases fuel <;> simp [whileM, h]

theorem whileM_turn (h : cond s = true) (hb : body s = some t) :
    whileM cond body (fuel + 1) s = whileM cond body fuel t := by
  simp [whileM, h, hb]

/-- What every turn preserves, the loop preserves. -/
theorem whileM_rel {R : σ → σ → Prop} (hrefl : ∀ s, R s s)
    (htrans : ∀ {s t u}, R s t → R t u → R s u)
    (hbody : ∀ {s t}, body s = some t → R s t) :
    ∀ {fuel s t}, whileM cond body fuel s = some t → R s t := by
  intro fuel
  induction fuel with
  | zero =>
    intro s t h
    rw [whileM] at h
    split at h
    · cases h
    · cases h
      exact hrefl s
  | succ fuel ih =>
    intro s t h
    rw [whileM] at h
    split at h
    · obtain ⟨u, hu, hrest⟩ := Option.bind_eq_some_iff.mp h
      exact htrans (hbody hu) (ih hrest)
    · cases h
      exact hrefl s

end Loop
