import Mathlib.Tactic

/-! Singly linked chains: every node names the next one, and a distinguished
node `z` ends the chain. -/
namespace LinkChain

variable {κ : Type} {next next' : κ → κ} {z a b c n : κ} {l m : List κ}

/-- `l` are the nodes of the chain that starts at `a`, in order. -/
def IsChain (next : κ → κ) (z : κ) : κ → List κ → Prop
  | a, [] => a = z
  | a, b :: l => a = b ∧ a ≠ z ∧ IsChain next z (next a) l

theorem IsChain.unique (h : IsChain next z a l) (h' : IsChain next z a m) : l = m := by
  induction l generalizing a m with
  | nil =>
    cases m with
    | nil => rfl
    | cons c m => exact absurd h h'.2.1
  | cons b l ih =>
    obtain ⟨rfl, h0, hl⟩ := h
    cases m with
    | nil => exact absurd h' h0
    | cons c m =>
      obtain ⟨rfl, -, hm⟩ := h'
      rw [ih hl hm]

/-- The rest of a chain is the chain of the next node. -/
theorem IsChain.after (h : IsChain next z a (l ++ c :: m)) :
    c ≠ z ∧ IsChain next z (next c) m := by
  induction l generalizing a with
  | nil =>
    obtain ⟨rfl, h0, hm⟩ := h
    exact ⟨h0, hm⟩
  | cons b l ih => exact ih h.2.2

/-- A chain that ends visits no node twice. -/
theorem IsChain.nodup (h : IsChain next z a l) : l.Nodup := by
  induction l generalizing a with
  | nil => exact List.nodup_nil
  | cons b l ih =>
    obtain ⟨rfl, h0, hl⟩ := h
    refine List.nodup_cons.mpr ⟨?_, ih hl⟩
    intro hmem
    -- behind a second visit the chain would repeat itself
    obtain ⟨p, q, hpq⟩ := List.append_of_mem hmem
    have hq : q = l := (IsChain.after (hpq ▸ hl)).2.unique hl
    have hlen := congrArg List.length hpq
    rw [hq, List.length_append, List.length_cons] at hlen
    omega

theorem IsChain.ne_end (h : IsChain next z a l) (hc : c ∈ l) : c ≠ z := by
  obtain ⟨p, q, rfl⟩ := List.append_of_mem hc
  exact h.after.1

theorem IsChain.congr (h : IsChain next z a l) (hn : ∀ c ∈ l, next' c = next c) :
    IsChain next' z a l := by
  induction l generalizing a with
  | nil => exact h
  | cons b l ih =>
    obtain ⟨rfl, h0, hl⟩ := h
    refine ⟨rfl, h0, ?_⟩
    rw [hn a List.mem_cons_self]
    exact ih hl fun c hc => hn c (List.mem_cons_of_mem _ hc)

/-- A node is linked behind the last one. -/
theorem IsChain.snoc (h : IsChain next z a (l ++ [c])) (hn : n ≠ z) (hc : next' c = n)
    (hend : next' n = z) (hsame : ∀ b ∈ l, next' b = next b) :
    IsChain next' z a (l ++ [c, n]) := by
  induction l generalizing a with
  | nil =>
    obtain ⟨rfl, h0, -⟩ := h
    exact ⟨rfl, h0, hc, hc ▸ hn, by rw [hc]; exact hend⟩
  | cons b l ih =>
    obtain ⟨rfl, h0, hl⟩ := h
    refine ⟨rfl, h0, ?_⟩
    rw [hsame a List.mem_cons_self]
    exact ih hl fun b hb => hsame b (List.mem_cons_of_mem _ hb)

/-- A list in which every node is followed by the one it names. -/
theorem isChain_of_getD (hz : ∀ b ∈ l, b ≠ z)
    (hn : ∀ k < l.length, next (l.getD k z) = l.getD (k + 1) z) :
    IsChain next z (l.getD 0 z) l := by
  induction l with
  | nil => rfl
  | cons b l ih =>
    refine ⟨rfl, hz b List.mem_cons_self, ?_⟩
    have h0 : next b = l.getD 0 z := hn 0 (by simp)
    change IsChain next z (next b) l
    rw [h0]
    refine ih (fun c hc => hz c (List.mem_cons_of_mem _ hc)) ?_
    intro k hk
    exact hn (k + 1) (by simp; omega)

end LinkChain
