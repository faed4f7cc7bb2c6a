import CobaltRom.Console.StrbufMax

/-! Code that appends a text to a string buffer, whatever kind of buffer it is. -/
namespace Console

open HeapBlock

/-- `I` says how a buffer holds a text, and a string can be appended while there is `room` for
the text that this gives. -/
structure Accepts (heap : Heap) (I : Strbuf → List UInt8 → Prop) (room : Nat → Prop) : Prop where
  append : ∀ {b : Strbuf} {text str : List UInt8}, I b text → (0 : UInt8) ∉ str →
    room (text ++ str).length → ∃ r b', strbufAppend heap b str = some (r, b') ∧ I b' (text ++ str)
  mono : ∀ {m n : Nat}, room n → m ≤ n → room m

/-- `f` appends `out` to the buffer of its state, wherever there is room for it. -/
def Emits {σ : Type} (heap : Heap) (buf : σ → Strbuf) (f : σ → Option σ) (out : List UInt8) :
    Prop :=
  (0 : UInt8) ∉ out ∧ ∀ I room, Accepts heap I room → ∀ s text, I (buf s) text →
    room (text ++ out).length → ∃ s', f s = some s' ∧ I (buf s') (text ++ out)

/-- The heap serves every request of a buffer on its way to `n` characters. -/
def ServesUpTo (heap : Heap) (n : Nat) : Prop := ∀ k ≤ n + 1, heap k = true

/-- A buffer of fixed size in the block `old`. -/
structure FixedIn (old : Block) (b : Strbuf) (text : List UInt8) : Prop where
  max_eq : b.max = strbufFixed
  len : b.len = text.length
  buf : b.buf = some (cells text ++ old.drop (text.length + 1))
  room : text.length < old.length

variable {σ : Type} {heap : Heap} {buf : σ → Strbuf} {f g : σ → Option σ}
  {out out' str : List UInt8}
  {b : Strbuf} {text : List UInt8} {n : Nat} {c : UInt8}

/-! ### Sequences -/

theorem Emits.bind (hf : Emits heap buf f out) (hg : Emits heap buf g out') :
    Emits heap buf (fun s => (f s).bind g) (out ++ out') := by
  refine ⟨fun h => (List.mem_append.mp h).elim hf.1 hg.1, fun I room hacc s text hs hroom => ?_⟩
  rw [← List.append_assoc] at hroom ⊢
  obtain ⟨s₁, h₁, hs₁⟩ := hf.2 I room hacc s text hs
    (hacc.mono hroom (by simp only [List.length_append]; omega))
  obtain ⟨s₂, h₂, hs₂⟩ := hg.2 I room hacc s₁ _ hs₁ hroom
  exact ⟨s₂, by simp only [h₁, Option.bind_some, h₂], hs₂⟩

theorem Emits.congr (hf : Emits heap buf f out) (h : ∀ s, g s = f s) : Emits heap buf g out :=
  ⟨hf.1, fun I room hacc s text hs hroom => by rw [h]; exact hf.2 I room hacc s text hs hroom⟩

theorem emits_nothing : Emits heap buf some [] :=
  ⟨List.not_mem_nil, fun _ _ _ s _ hs _ => ⟨s, rfl, by rwa [List.append_nil]⟩⟩

theorem emits_append (hstr : (0 : UInt8) ∉ str) :
    Emits heap id (fun b => (strbufAppend heap b str).map Prod.snd) str := by
  refine ⟨hstr, fun I room hacc b text hb hroom => ?_⟩
  obtain ⟨r, b', hb', hold⟩ := hacc.append hb hstr hroom
  exact ⟨b', congrArg (Option.map Prod.snd) hb', hold⟩

theorem emits_appendc (heap : Heap) (c : UInt8) :
    Emits heap id (fun b => (strbufAppendc heap b c).map Prod.snd) (charStr c) :=
  emits_append (zero_not_mem_charStr c)

/-! ### The kinds of buffers -/

theorem accepts_grow (heap : Heap) : Accepts heap Holds (ServesUpTo heap) where
  append := fun {_ _ str} hb _ hroom => ⟨_, strbufAppend_grow heap str hb (hroom _ le_rfl)⟩
  mono := fun h hle k hk => h k (by omega)

theorem take_take_append (max : Nat) (text str : List UInt8) :
    (text.take max ++ str).take max = (text ++ str).take max := by
  rcases Nat.le_total text.length max with hle | hle
  · rw [List.take_of_length_le hle]
  · have hlen : (text.take max).length = max := by rw [List.length_take, Nat.min_eq_left hle]
    rw [List.take_append_of_le_length (by omega), List.take_take, Nat.min_self,
      List.take_append_of_le_length hle]

/-- A buffer with a maximum keeps the start of the text. -/
theorem accepts_bounded (heap : Heap) (max : Nat) (tail : Block) :
    Accepts heap (fun b text => Bounded b max tail (text.take max)) fun _ => True where
  append := by
    intro b text str hb hnul _
    obtain ⟨r, b', hb', hold⟩ := hb.append heap hnul
    exact ⟨r, b', hb', by rwa [take_take_append] at hold⟩
  mono := fun _ _ => trivial

theorem FixedIn.append {old : Block} (h : FixedIn old b text) (heap : Heap)
    (hroom : (text ++ str).length < old.length) :
    ∃ r b', strbufAppend heap b str = some (r, b') ∧ FixedIn old b' (text ++ str) := by
  have hneg : strbufFixed < 0 := by decide
  have hne : ¬ b.max = strbufGrow := by
    rw [h.max_eq]
    decide
  rw [List.length_append] at hroom
  have hloop := appendLoop_run strbufFixed str (text.map some)
    (some 0 :: old.drop (text.length + 1)) 0
    str.length (Nat.le_refl _) (by rw [List.length_cons, List.length_drop]; omega)
    (fun _ _ => Or.inl hneg) (Or.inl rfl)
  have hbuf : b.buf = some (text.map some ++ some 0 :: old.drop (text.length + 1)) := by
    rw [h.buf, cells, List.append_assoc]
    rfl
  rw [List.length_map, List.take_length, List.drop_succ_cons, List.drop_drop] at hloop
  refine ⟨0 + (str.length : Int), { b with buf := some (text.map some ++ str.map some ++
    some 0 :: old.drop (text.length + 1 + str.length)), len := text.length + str.length }, ?_,
    h.max_eq, by simp, ?_, by rw [List.length_append]; omega⟩
  · rw [strbufAppend, if_neg hne]
    simp only
    rw [h.max_eq, h.len, hbuf, hloop]
    rfl
  · rw [cells, List.map_append, List.append_assoc (_ ++ _), List.length_append, Nat.add_right_comm]
    rfl

theorem accepts_fixed (heap : Heap) (old : Block) :
    Accepts heap (FixedIn old) fun n => n < old.length where
  append := fun hb _ hroom => hb.append heap hroom
  mono := fun h hle => Nat.lt_of_le_of_lt hle h

theorem fixed_init (heap : Heap) (old : Block) (hold : 0 < old.length) :
    ∃ b, strbufInit heap (some old) strbufFixed = some (0, b) ∧ FixedIn old b [] := by
  cases old with
  | nil => exact absurd hold (Nat.lt_irrefl 0)
  | cons x p =>
    have hst := store_mid [] p x 0
    refine ⟨{ len := 0, max := strbufFixed, buf := some (some 0 :: p) }, ?_, rfl, rfl, rfl, hold⟩
    simpa [strbufInit] using hst

end Console
