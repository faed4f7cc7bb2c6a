import CobaltRom.Console.Navigation

/-! How far into `prevs` the history keys reach. -/
namespace Console

/-- The states `raw_read` goes through, from the one it is called in. -/
inductive Passes (env : Env) (s : Raw) : Raw → Prop
  | start {t : Raw} (h : rawInit env s = some t) : Passes env s t
  | turn {t u : Raw} (h : Passes env s t) (hd : t.done = false) (ht : rawTurn env t = some u) :
      Passes env s u

/-- The entries of `prevs` that `raw_arrow` reads and writes. -/
def arrowTouches (env : Env) (which : Arrow) (s : Raw) : List Nat :=
  match which with
  | .up =>
    if (histlookupNum env.hist (env.hist.histnum - Int32.ofNat (s.ups + 1))).isSome then
      [s.ups, s.ups + 1]
    else []
  | .down => if s.ups = 0 then [] else [s.ups, s.ups - 1]
  | .left | .right => []

def turnTouches (env : Env) (s : Raw) : List Nat :=
  match turnArrow s with
  | none => []
  | some (which, s) => arrowTouches env which s

/-- The entries that the cleanup loop reads, up to the first NULL. -/
def cleanupTouches (s : Raw) : Nat → Nat → List Nat
  | 0, _ => []
  | k + 1, c =>
    c :: if (s.prevs c).isSome && decide (c < histsz) then cleanupTouches s k (c + 1) else []

/-- Every access of a call of `raw_read` is inside `prevs`. -/
def PrevsSafe (env : Env) (s : Raw) : Prop :=
  ∀ t, Passes env s t →
    (t.done = false → ∀ i ∈ turnTouches env t, i < histsz) ∧
    (t.done = true → ∀ i ∈ cleanupTouches t (histsz + 1) 0, i < histsz)

variable {env : Env} {s t u : Raw} {which : Arrow} {n : Nat} {lines : List CStr}

/-! ### What is touched outside is a fault -/

theorem rawArrow_outside {i : Nat} (hi : i ∈ arrowTouches env which s) (hout : histsz ≤ i) :
    rawArrow env which s = none := by
  have hset : ∀ j p, histsz ≤ j → setPrevs s j p = none := fun j p hj => if_neg (by omega)
  cases which with
  | up =>
    rw [arrowTouches] at hi
    split at hi
    · rename_i hsome
      obtain ⟨p, hp⟩ := Option.isSome_iff_exists.mp hsome
      simp only [List.mem_cons, List.not_mem_nil, or_false] at hi
      simp only [rawArrow, hp]
      by_cases hu : histsz ≤ s.ups
      · rw [hset _ _ hu, Option.bind_none]
      · have hout' : ∀ v : Raw, prevsAt v (s.ups + 1) = none := fun v => if_neg (by omega)
        rw [setPrevs, if_pos (by omega), Option.bind_some]
        simp only [hout', Option.bind_none]
    · cases hi
  | down =>
    rw [arrowTouches] at hi
    split at hi
    · cases hi
    · rename_i h0
      simp only [List.mem_cons, List.not_mem_nil, or_false] at hi
      rw [rawArrow]
      simp only [if_neg h0]
      rw [hset _ _ (by omega), Option.bind_none]
  | left => cases hi
  | right => cases hi

theorem cleanupFrom_outside {i : Nat} (s : Raw) : ∀ k c, i ∈ cleanupTouches s k c → histsz ≤ i →
    cleanupFrom s k c = none := by
  intro k
  induction k with
  | zero => exact fun _ hi _ => absurd hi List.not_mem_nil
  | succ k ih =>
    intro c hi hout
    rw [cleanupTouches, List.mem_cons] at hi
    rw [cleanupFrom]
    by_cases hc : c < histsz
    · rw [prevsAt, if_pos hc, Option.bind_some]
      rcases hi with rfl | hi
      · omega
      · split at hi
        · rename_i hp
          rw [if_pos hp]
          exact ih _ hi hout
        · cases hi
    · rw [prevsAt, if_neg hc, Option.bind_none]

/-! ### Short histories -/

/-- At most `n` lines back, with nothing saved beyond. -/
structure Below (n : Nat) (s : Raw) : Prop where
  ups : s.ups ≤ n
  prevs : ∀ i, n < i → s.prevs i = none

theorem Keeps.below (h : Keeps s t) (hb : Below n s) : Below n t :=
  ⟨h.ups ▸ hb.ups, fun i hi => h.prevs ▸ hb.prevs i hi⟩

theorem Below.set (h : Below n s) {j : Nat} (hj : j ≤ n) {i : Nat} (hi : i ≤ n) (p : Option Block) :
    Below n { s with ups := j, prevs := fun m => if m = i then p else s.prevs m } := by
  refine ⟨hj, fun m hm => ?_⟩
  simp only
  rw [if_neg (by omega)]
  exact h.prevs m hm

/-- The lookups of UP succeed for `n` lines only. -/
def Reaches (env : Env) (n : Nat) : Prop :=
  ∀ u ≤ n, (histlookupNum env.hist (env.hist.histnum - Int32.ofNat (u + 1))).isSome → u + 1 ≤ n

theorem Below.arrow (h : Below n s) (hreach : Reaches env n) (ht : rawArrow env which s = some t) :
    Below n t := by
  cases which with
  | up =>
    cases hp : histlookupNum env.hist (env.hist.histnum - Int32.ofNat (s.ups + 1)) with
    | none =>
      simp only [rawArrow, hp] at ht
      cases ht
      exact ⟨h.ups, h.prevs⟩
    | some p =>
      have hu := hreach s.ups h.ups (by rw [hp]; rfl)
      simp only [rawArrow, hp, setPrevs] at ht
      split at ht
      · simp only [Option.bind_some] at ht
        obtain ⟨saved, -, ht⟩ := Option.bind_eq_some_iff.mp ht
        have hset := h.set hu h.ups s.rawbuf.buf
        cases saved with
        | some b => exact (keeps_showLine ht).below hset
        | none =>
          simp only at ht
          split at ht
          · cases ht
          · exact (keeps_showLine ht).below hset
      · cases ht
  | down =>
    rw [rawArrow] at ht
    simp only at ht
    split at ht
    · cases ht
      exact ⟨h.ups, h.prevs⟩
    · obtain ⟨v, hv, ht⟩ := Option.bind_eq_some_iff.mp ht
      rw [setPrevs] at hv
      split at hv
      · cases hv
        obtain ⟨saved, -, ht⟩ := Option.bind_eq_some_iff.mp ht
        have hj : s.ups - 1 ≤ n := (Nat.sub_le _ _).trans h.ups
        exact (keeps_showLine ht).below (h.set hj h.ups s.rawbuf.buf)
      · cases hv
  | left => exact (keeps_rawArrow (Or.inl rfl) ht).below h
  | right => exact (keeps_rawArrow (Or.inr rfl) ht).below h

theorem passes_below (hreach : Reaches env n) (h : Passes env s t) : Below n t := by
  induction h with
  | start h =>
    obtain ⟨r, -, rfl⟩ := Option.map_eq_some_iff.mp h
    exact ⟨Nat.zero_le n, fun _ _ => rfl⟩
  | turn _ _ ht ih =>
    rcases rawTurn_cases ht with ⟨which, v, -, hv, harrow⟩ | ⟨-, hkeep⟩
    · exact (hv.below ih).arrow hreach harrow
    · exact hkeep.below ih

theorem turnArrow_keeps (h : turnArrow s = some (which, t)) : Keeps s t := by
  unfold turnArrow at h
  split at h
  · cases h
  split at h
  · cases h
    exact keeps_input _ s
  split at h
  · cases h
    exact keeps_input _ s
  split at h
  · split at h
    · split at h
      · cases h
        exact keeps_input _ s
      split at h
      · cases h
        exact keeps_input _ s
      · cases h
    · cases h
  · cases h

theorem cleanupTouches_le (h : s.prevs n = none) :
    ∀ k c, c ≤ n → ∀ i ∈ cleanupTouches s k c, i ≤ n := by
  intro k
  induction k with
  | zero => exact fun _ _ _ hi => absurd hi List.not_mem_nil
  | succ k ih =>
    intro c hc i hi
    rw [cleanupTouches, List.mem_cons] at hi
    rcases hi with rfl | hi
    · exact hc
    · split at hi
      · rename_i hp
        refine ih (c + 1) ?_ i hi
        rcases Nat.lt_or_eq_of_le hc with hlt | rfl
        · exact hlt
        · rw [h] at hp
          cases hp
      · cases hi

theorem prevsSafe_of_reaches (hreach : Reaches env n) (hn : n + 1 < histsz) (s : Raw) :
    PrevsSafe env s := by
  intro t ht
  have hb := passes_below hreach ht
  refine ⟨fun _ i hi => ?_, fun _ i hi => ?_⟩
  · rw [turnTouches] at hi
    split at hi
    · cases hi
    · rename_i which v hv
      have hbv := (turnArrow_keeps hv).below hb
      cases which with
      | up =>
        rw [arrowTouches] at hi
        split at hi
        · rename_i hsome
          have := hreach v.ups hbv.ups hsome
          simp only [List.mem_cons, List.not_mem_nil, or_false] at hi
          omega
        · cases hi
      | down =>
        have := hbv.ups
        rw [arrowTouches] at hi
        split at hi
        · cases hi
        · simp only [List.mem_cons, List.not_mem_nil, or_false] at hi
          omega
      | left => cases hi
      | right => cases hi
  · have := cleanupTouches_le (hb.prevs (n + 1) (Nat.lt_succ_self n)) _ 0 (Nat.zero_le _) i hi
    omega

theorem reaches_saveAll (heap : Heap) (hsave : ∀ l ∈ lines, heap (l.text.length + 1) = true)
    (hn : lines.length ≤ 126) (hhist : env.hist = (saveAll heap lines).hist) :
    Reaches env lines.length := by
  intro u hle hu
  by_contra hlt
  obtain rfl : u = lines.length := by omega
  have hsaved := saved_saveAll heap lines hsave
  -- one line too far back: the number is -1, which no line has
  rw [hhist, hsaved.lookupNum_other fun k _ hk he => ?_] at hu
  · cases hu
  · have hadd : Int32.ofNat (k + (lines.length + 1)) = Int32.ofNat lines.length := by
      rw [Int32.ofNat_add, he, hsaved.histnum, Int32.sub_add_cancel]
    have := (ofNat_inj_near _ _ (by omega) (by omega)).mp hadd
    omega

/-! ### Long histories -/

/-- UP, `k` times, from a line that is being edited. -/
theorem passes_ups {buf : Option Block} {text l : List UInt8} {s₀ : Raw} {ring : Ring}
    (hsaved : Saved ring lines) (hhist : env.hist = ring.hist)
    (hplain : ∀ i, ∀ y ∈ levelText lines text i, Plain y) (hbuf : Shown buf text)
    (hheap : ∀ l ∈ lines, env.heap (l.text.length + 1) = true)
    (hfuel : ∀ i, (levelText lines text i).length + 1 ≤ env.fuel) :
    ∀ (k j : Nat) {s : Raw} {pos : Nat},
    Passes env s₀ s → At lines buf text s j pos → s.done = false →
    s.input = List.replicate k (ctrl 'P') ++ l → j + k < histsz → j + k ≤ lines.length →
    ∃ t pos', Passes env s₀ t ∧ At lines buf text t (j + k) pos' ∧ t.input = l ∧
      t.done = false := by
  intro k
  induction k with
  | zero => exact fun j _ _ hp hat hd hin _ _ => ⟨_, _, hp, hat, hin, hd⟩
  | succ k ih =>
    intro j s pos hp hat hd hin hj hlen
    rw [List.replicate_succ, List.cons_append] at hin
    obtain ⟨t, ht, hat', hti, htd, -⟩ :=
      (hat.input (List.replicate k (ctrl 'P') ++ l)).up hsaved hhist
      hplain hbuf hheap hfuel (by omega) (by omega)
    obtain ⟨u, pos', hu, hau, hui, hud⟩ :=
      ih (j + 1) (hp.turn hd ((rawTurn_cons hin).trans ht)) hat'
      (htd.trans hd) hti (by omega) (by omega)
    rw [Nat.add_right_comm] at hau
    exact ⟨u, pos', hu, hau, hui, hud⟩

theorem cleanupTouches_all (h : ∀ i < histsz, (s.prevs i).isSome = true) : ∀ k c, c + k = histsz →
    histsz ∈ cleanupTouches s (k + 1) c := by
  intro k
  induction k with
  | zero =>
    intro c hc
    rw [cleanupTouches, show c = histsz by omega]
    exact List.mem_cons_self
  | succ k ih =>
    intro c hc
    rw [cleanupTouches, if_pos (by rw [h c (by omega), decide_eq_true (by omega)]; rfl)]
    exact List.mem_cons_of_mem c (ih (c + 1) (by omega))

/-- A character, 127 times UP, DOWN and return. -/
def overrunKeys : List UInt8 := 97 :: (List.replicate 127 (ctrl 'P') ++ [ctrl 'N', chCr])

theorem rawArrow_down_prevs (h0 : s.ups ≠ 0) (h : rawArrow env .down s = some t) :
    t.prevs = fun m => if m = s.ups then s.rawbuf.buf else s.prevs m := by
  rw [rawArrow] at h
  simp only [if_neg h0] at h
  obtain ⟨v, hv, h⟩ := Option.bind_eq_some_iff.mp h
  obtain ⟨saved, -, h⟩ := Option.bind_eq_some_iff.mp h
  rw [setPrevs] at hv
  split at hv
  · cases hv
    exact (keeps_showLine h).prevs
  · cases hv

theorem level_isSome {buf : Option Block} (hbuf : buf.isSome = true) {j : Nat}
    (hj : j ≤ lines.length) :
    (level lines buf j).isSome = true := by
  cases j with
  | zero => exact hbuf
  | succ j =>
    rw [level, List.getElem?_eq_getElem (by rw [List.length_reverse]; omega)]
    rfl

/-- Memory for every request, and these lines for history. -/
def ampleEnv (lines : List CStr) (fuel : Nat) : Env where
  heap := fun _ => true
  hist := (saveAll (fun _ => true) lines).hist
  fuel := fuel

theorem overrun_touches (hplain : ∀ l ∈ lines, ∀ y ∈ l.text, Plain y) (hn : 127 ≤ lines.length)
    {fuel : Nat} (hfuel : ∀ l ∈ lines, l.text.length < fuel) (hfuel' : 3 ≤ fuel) :
    ∃ t, Passes (ampleEnv lines fuel) (startRaw overrunKeys) t ∧ t.done = true ∧
      histsz ∈ cleanupTouches t (histsz + 1) 0 := by
  obtain ⟨env, henv⟩ : ∃ env, env = ampleEnv lines fuel := ⟨_, rfl⟩
  rw [← henv]
  have hheap : ∀ n, env.heap n = true := fun n => by rw [henv, ampleEnv]
  have hhist : env.hist = (saveAll (fun _ => true) lines).hist := by rw [henv, ampleEnv]
  have hsaved := saved_saveAll (fun _ => true) lines fun _ _ => rfl
  have hf : env.fuel = fuel := by rw [henv, ampleEnv]
  -- the line and its first character
  have hinit : Passes env (startRaw overrunKeys) (startRaw overrunKeys) := .start rfl
  have hshow : Shows (startRaw overrunKeys) (Editor.empty false) :=
    ⟨rfl, rfl, ⟨rfl, rfl, Or.inr ⟨rfl, rfl⟩⟩, by simp [Editor.empty]⟩
  obtain ⟨t₁, ht₁, hp₁⟩ := rawTurn_press hshow (by rw [hf]; simp [Editor.empty]; omega)
    (fun _ _ => hheap _) (List.replicate 127 (ctrl 'P') ++ [ctrl 'N', chCr])
    (.char 97 (by decide)) rfl
  have hups₁ : t₁.ups = 0 := by
    rcases rawTurn_cases ht₁ with ⟨which, v, hv, -, -⟩ | ⟨-, hkeep⟩
    · cases hv
    · exact hkeep.ups
  have hline : Line t₁ [97] [] := hp₁.shows.line
  have hsome : t₁.rawbuf.buf.isSome = true := by
    rcases hline.buf.buf with hb | ⟨-, hnil⟩
    · rw [hb]
      rfl
    · cases hnil
  have hp : ∀ i, ∀ y ∈ levelText lines [97] i, Plain y :=
    levelText_forall (P := fun l => ∀ y ∈ l, Plain y) hline.plain hplain (by simp)
  have hfl : ∀ i, (levelText lines [97] i).length + 1 ≤ env.fuel := by
    rw [hf]
    exact levelText_forall (P := fun l => l.length + 1 ≤ fuel) (by simp; omega) hfuel
      (by simp; omega)
  have hat₁ : At lines t₁.rawbuf.buf [97] t₁ 0 1 :=
    ⟨hups₁, hline.pos, le_refl 1, hline.buf, rfl, fun i hi => absurd hi (Nat.not_lt_zero i),
      fun i _ => Or.inl (congrFun hp₁.prevs i)⟩
  -- up to the last entry, and back once
  obtain ⟨t₂, pos, hpass₂, hat₂, hin₂, hd₂⟩ :=
    passes_ups hsaved hhist hp hline.buf.buf (fun _ _ => hheap _)
    hfl 127 0 (hinit.turn rfl ht₁) hat₁ hp₁.done hp₁.input (by decide) (by omega)
  rw [Nat.zero_add] at hat₂
  obtain ⟨t₃, ht₃, hat₃, hin₃, hd₃, -⟩ :=
    At.down hp hline.buf.buf hfl (hat₂.input [chCr]) (by decide)
  have hprevs := rawArrow_down_prevs (by rw [(hat₂.input [chCr]).ups]; decide) ht₃
  have hpass₃ := hpass₂.turn hd₂ ((rawTurn_cons hin₂).trans ht₃)
  have hall : ∀ i < histsz, (t₃.prevs i).isSome = true := by
    intro i hi
    rw [hprevs]
    simp only [hat₂.ups]
    by_cases hlast : i = 127
    · rw [if_pos hlast, hat₂.block]
      exact level_isSome hsome hn
    · rw [if_neg hlast, hat₂.below i (by simp only [histsz] at hi; omega)]
      exact level_isSome hsome (by simp only [histsz] at hi; omega)
  refine ⟨_, hpass₃.turn (hd₃.trans hd₂) (rawTurn_cons hin₃), rfl, ?_⟩
  exact cleanupTouches_all (fun i hi => hall i hi) histsz 0 (Nat.zero_add _)

theorem exists_fuel :
    ∀ lines : List CStr, ∃ fuel, 3 ≤ fuel ∧ ∀ l ∈ lines, l.text.length < fuel := by
  intro lines
  induction lines with
  | nil => exact ⟨3, le_refl 3, by simp⟩
  | cons l lines ih =>
    obtain ⟨fuel, h3, hall⟩ := ih
    refine ⟨fuel + l.text.length, by omega, fun m hm => ?_⟩
    rcases List.mem_cons.mp hm with rfl | hm
    · omega
    · have := hall m hm
      omega

/-- Up to 126 lines of history the keys stay inside `prevs`, whatever the lines hold; from 127
lines on there are keys that leave it. -/
theorem prevs_in_bounds (lines : List CStr) :
    (lines.length ≤ 126 → ∀ heap : Heap, (∀ l ∈ lines, heap (l.text.length + 1) = true) →
      ∀ env : Env, env.hist = (saveAll heap lines).hist → ∀ s, PrevsSafe env s) ∧
    ((∀ l ∈ lines, ∀ y ∈ l.text, Plain y) →
      (∀ env : Env, env.hist = (saveAll (fun _ => true) lines).hist → ∀ s, PrevsSafe env s) →
      lines.length ≤ 126) := by
  refine ⟨fun hn heap hsave env hhist s => ?_, fun hplain hsafe => ?_⟩
  · exact prevsSafe_of_reaches (reaches_saveAll heap hsave hn hhist)
      (by simp only [histsz]; omega) s
  · by_contra hn
    obtain ⟨fuel, h3, hfuel⟩ := exists_fuel lines
    obtain ⟨t, ht, hd, hmem⟩ := overrun_touches hplain (by omega) hfuel h3
    exact absurd ((hsafe _ rfl _ t ht).2 hd histsz hmem) (lt_irrefl _)

theorem prevs_in_bounds_one : PrevsSafe (ampleEnv [⟨[97], by decide⟩] 9) (startRaw overrunKeys) :=
  (prevs_in_bounds [⟨[97], by decide⟩]).1 (by decide) (fun _ => true) (fun _ _ => rfl) _ rfl _

/-- 127 saved lines: the cleanup loop reads `prevs[128]`. -/
theorem prevs_overrun : ∃ t,
    Passes (ampleEnv (List.replicate 127 ⟨[97], by decide⟩) 3) (startRaw overrunKeys) t ∧
      t.done = true ∧ histsz ∈ cleanupTouches t (histsz + 1) 0 := by
  refine overrun_touches (fun l hl y hy => ?_) (by rw [List.length_replicate]) (fun l hl => ?_)
    (le_refl 3)
  · rw [List.eq_of_mem_replicate hl, List.mem_singleton] at hy
    rw [hy]
    unfold Plain
    decide
  · rw [List.eq_of_mem_replicate hl]
    decide

end Console
