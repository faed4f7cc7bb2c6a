import CobaltRom.Console.Scanning

/-! History expansion in the state machine of `readline`: from a `!` to the end of its key. -/
namespace Console

def InBang (s : Scan) : Prop := s.state = .bang ∨ s.state = .bangnum ∨ s.state = .bangstr

/-- The key that the characters behind a `!` begin with: another `!`, a number, or everything
up to the next space. -/
def expansionKey (before : Ctype.Before) : List UInt8 → Option (List UInt8)
  | [] => none
  | c :: rest =>
    if c = chBang then some [chBang]
    else if Ctype.isdigit before c then some ((c :: rest).takeWhile (Ctype.isdigit before))
    else if Ctype.isalnum before c then
      some ((c :: rest).takeWhile fun c => !Ctype.isspace before c)
    else none

/-- The states between a `!` that was met in `s'` and the end of its expansion. -/
inductive Expanding (env : ScanEnv) (text : List UInt8) (s' : Scan) : Scan → Prop
  | meets {s : Scan} (hs : s'.state = .line ∨ s'.state = .dqstr)
      (ht : scanTurn env (some (cells text)) s' = .ok s) (hb : s.state = .bang) :
      Expanding env text s' s
  | goes {s t : Scan} (h : Expanding env text s' s)
      (ht : scanTurn env (some (cells text)) s = .ok t) (hb : InBang t) : Expanding env text s' t

/-- Outside the keys `bi` is 0, and `pushed_state` is a state of the unquoted line or of a
double-quoted string where it is going to be used. -/
structure Sound (s : Scan) : Prop where
  bi : s.state ≠ .bangnum → s.state ≠ .bangstr → s.bi = 0
  pushed : s.state = .sqstr ∨ InBang s → s.pushed = .line ∨ s.pushed = .dqstr

/-- The characters of a key in this state. -/
def inKey (before : Ctype.Before) : RlState → UInt8 → Bool
  | .bangnum, c => Ctype.isdigit before c
  | .bangstr, c => !Ctype.isspace before c
  | _, _ => false

variable {env : ScanEnv} {bbuf : KeyBuf} {text rest : List UInt8} {s s' t : Scan} {c : UInt8}

theorem InBang.running (h : InBang s) : s.ended = false := by
  rcases h with h | h | h <;> simp [Scan.ended, h]

theorem inBang_of_key {p q : Prop} (h : s.state = .bangnum ∧ p ∨ s.state = .bangstr ∧ q) :
    InBang s := by
  rcases h with h | h
  · exact Or.inr (Or.inl h.1)
  · exact Or.inr (Or.inr h.1)

theorem Expanding.inBang (h : Expanding env text s' s) : InBang s := by
  cases h with
  | meets _ _ hb => exact Or.inl hb
  | goes _ _ hb => exact hb

theorem Move.sound (h : Move env c s t) (hs : Sound s) : Sound t := by
  obtain ⟨hbi, hpushed⟩ := hs
  cases h with
  | ends h | slash h | escaped _ h | opensDouble _ h | closesDouble _ h | previous _ h =>
    refine ⟨fun _ _ => hbi (by simp [h]) (by simp [h]), fun hq => ?_⟩
    simp [InBang] at hq
  | char _ h =>
    refine ⟨fun hn hn' => hbi hn hn', fun hq => hpushed hq⟩
  | meets h | opensSingle _ h =>
    refine ⟨fun _ _ => ?_, fun _ => h⟩
    rcases h with h | h <;> exact hbi (by simp [h]) (by simp [h])
  | closesSingle _ h =>
    have hp := hpushed (Or.inl h)
    refine ⟨fun _ _ => hbi (by simp [h]) (by simp [h]), fun _ => hp⟩
  | unterminated h =>
    refine ⟨fun _ _ => ?_, fun hq => by simp [InBang] at hq⟩
    rcases h with h | h <;> exact hbi (by simp [h]) (by simp [h])
  | noBang h =>
    exact ⟨fun _ _ => hbi (by simp [h]) (by simp [h]), fun hq => by simp [InBang] at hq⟩
  | number h | string h =>
    exact ⟨fun hn hn' => by simp at hn hn', fun _ => hpushed (Or.inr (Or.inl h))⟩
  | key h =>
    refine ⟨fun hn hn' => ?_, fun hq => hpushed hq⟩
    rcases h with h | h
    · exact absurd h.1 hn
    · exact absurd h.1 hn'
  | found _ h =>
    have hp : s.pushed = .line ∨ s.pushed = .dqstr := hpushed (Or.inr (inBang_of_key h))
    exact ⟨fun _ _ => rfl, fun _ => hp⟩
  | notFound h => exact ⟨fun _ _ => rfl, fun hq => by simp [InBang] at hq⟩

theorem Scans.sound (h : Scans env bbuf text s) : Sound s := by
  induction h with
  | start h =>
    obtain ⟨-, hline, -, hbi⟩ := scanInit_start h
    exact ⟨fun _ _ => hbi, fun hq => by simp [InBang, hline] at hq⟩
  | turn _ hrun ht ih =>
    obtain ⟨c, -, hmove⟩ := scanTurn_cases hrun ht
    exact hmove.sound ih

/-! ### Where an expansion comes from -/

/-- The expansion that `s` is in the middle of was met in `s'`. -/
structure Origin (env : ScanEnv) (text : List UInt8) (s' s : Scan) : Prop where
  outside : s'.state = .line ∨ s'.state = .dqstr
  pushed : s.pushed = s'.state
  bang : text.drop s'.ptr = chBang :: text.drop (s'.ptr + 1)
  ptr : s.ptr = s'.ptr + 1 + s.bi
  start : s.state = .bang → s.bi = 0
  key : s.state ≠ .bang → ∃ w, expansionKey env.before (text.drop (s'.ptr + 1)) = some w ∧
    w = (text.drop (s'.ptr + 1)).takeWhile (inKey env.before s.state) ∧ s.bi ≤ w.length ∧
    (s.state = .bangnum → 0 < w.length)
  room : s.bi < bbufsz
  nul : 0 < s.bi → s.bbuf.val[s.bi]? = some 0

theorem takeWhile_next {P : UInt8 → Bool} {l : List UInt8} {i : Nat} (h : l.drop i = c :: rest)
    (hi : i ≤ (l.takeWhile P).length) : P c = true ↔ i < (l.takeWhile P).length := by
  have hsplit : (l.takeWhile P).drop i ++ l.dropWhile P = c :: rest := by
    rw [← List.drop_append_of_le_length hi, List.takeWhile_append_dropWhile, h]
  constructor
  · intro hc
    by_contra hge
    rw [List.drop_of_length_le (by omega), List.nil_append] at hsplit
    have hhead := List.head?_dropWhile_not P l
    rw [hsplit, List.head?_cons] at hhead
    simp [hc] at hhead
  · intro hlt
    rw [List.drop_eq_getElem_cons hlt, List.cons_append, List.cons.injEq] at hsplit
    have hmem : c ∈ l.takeWhile P := hsplit.1 ▸ List.getElem_mem hlt
    exact List.mem_takeWhile_imp hmem

theorem drop_of_load {i : Nat} (hc : load (some (cells text)) i = some c) (h0 : c ≠ 0) :
    text.drop i = c :: text.drop (i + 1) := by
  rcases load_some hc with ⟨rest, hrest⟩ | ⟨-, hz⟩
  · rw [drop_succ hrest, hrest]
  · exact absurd hz h0

theorem isalnum_nul (before : Ctype.Before) : Ctype.isalnum before 0 = false := by
  rw [Ctype.isalnum_of_lt (by decide)]
  rfl

theorem ne_zero_of_isdigit {before : Ctype.Before} (h : Ctype.isdigit before c = true) : c ≠ 0 := by
  rintro rfl
  rw [Ctype.isdigit_nul] at h
  cases h

theorem ne_zero_of_isalnum {before : Ctype.Before} (h : Ctype.isalnum before c = true) : c ≠ 0 := by
  rintro rfl
  rw [isalnum_nul] at h
  cases h

theorem Origin.move (h : Origin env text s' s) (hin : InBang s) (hnext : InBang t)
    (hc : load (some (cells text)) s.ptr = some c) (hmove : Move env c s t) :
    Origin env text s' t := by
  have hout : s.pushed = .line ∨ s.pushed = .dqstr := h.pushed ▸ h.outside
  cases hmove with
  | ends hs | slash hs | escaped _ hs | closesSingle _ hs | opensDouble _ hs | closesDouble _ hs =>
    simp [InBang, hs] at hin
  | meets hs | opensSingle _ hs | unterminated hs =>
    rcases hs with hs | hs <;> simp [InBang, hs] at hin
  | char _ hs => rcases hs with hs | hs | hs <;> simp [InBang, hs.1] at hin
  | previous | noBang | notFound => simp [InBang] at hnext
  | found => rcases hout with hp | hp <;> simp [InBang, hp] at hnext
  | number hs hb hd =>
    have hbi := h.start hs
    have hptr : s.ptr = s'.ptr + 1 := by rw [h.ptr, hbi]
    have hdrop := drop_of_load hc (ne_zero_of_isdigit hd)
    rw [hptr] at hdrop
    refine ⟨h.outside, h.pushed, h.bang, h.ptr, fun _ => hbi,
      fun _ => ⟨_, ?_, rfl, ?_, fun _ => ?_⟩, h.room, h.nul⟩
    · rw [hdrop, expansionKey, if_neg hb, if_pos hd]
      rfl
    · exact hbi ▸ Nat.zero_le _
    · rw [hdrop, List.takeWhile_cons_of_pos (by exact hd), List.length_cons]
      omega
  | string hs hb hd ha =>
    have hbi := h.start hs
    have hptr : s.ptr = s'.ptr + 1 := by rw [h.ptr, hbi]
    have hdrop := drop_of_load hc (ne_zero_of_isalnum ha)
    rw [hptr] at hdrop
    refine ⟨h.outside, h.pushed, h.bang, h.ptr, fun _ => hbi, fun _ => ⟨_, ?_, rfl, ?_, nofun⟩,
      h.room, h.nul⟩
    · rw [hdrop, expansionKey, if_neg hb, if_neg (by simp [hd]), if_pos ha]
      rfl
    · exact hbi ▸ Nat.zero_le _
  | key hs hbi =>
    have hne : s.state ≠ .bang := by rcases hs with hs | hs <;> simp [hs.1]
    have hkey : inKey env.before s.state c = true := by
      rcases hs with ⟨hs, hd⟩ | ⟨hs, -, hsp⟩
      · rw [hs]
        exact hd
      · rw [hs, inKey, hsp]
        rfl
    have h0 : c ≠ 0 := by
      rcases hs with ⟨-, hd⟩ | ⟨-, h0, -⟩
      · exact ne_zero_of_isdigit hd
      · exact h0
    obtain ⟨w, hw, hweq, hle, hpos⟩ := h.key hne
    have hdrop := drop_of_load hc h0
    rw [h.ptr, ← List.drop_drop] at hdrop
    have hlt : s.bi < w.length := by
      rw [hweq]
      exact (takeWhile_next hdrop (hweq ▸ hle)).mp hkey
    refine ⟨h.outside, h.pushed, h.bang, by rw [h.ptr]; rfl, fun hb => absurd hb hne,
      fun _ => ⟨w, hw, hweq, hlt, hpos⟩, hbi, fun _ => ?_⟩
    have hlen := s.bbuf.property
    exact List.getElem?_set_self (by simpa [hlen] using hbi)

theorem Expanding.origin (hs' : Sound s') (h : Expanding env text s' s) : Origin env text s' s := by
  induction h with
  | @meets s hs ht hb =>
    have hrun : s'.ended = false := by rcases hs with hs | hs <;> simp [Scan.ended, hs]
    have hbi : s'.bi = 0 := by
      rcases hs with hs | hs <;> exact hs'.bi (by simp [hs]) (by simp [hs])
    obtain ⟨c, hc, hmove⟩ := scanTurn_cases hrun ht
    cases hmove with
    | meets _ hbang =>
      exact ⟨hs, rfl, hbang ▸ drop_of_load hc (by rw [hbang]; decide), by simp [hbi], fun _ => hbi,
        fun hne => absurd rfl hne, by simp [hbi], by simp [hbi]⟩
    | ends | slash | escaped | opensSingle | opensDouble | closesDouble | unterminated | previous
    | number | string | noBang | notFound => cases hb
    | char => rcases hs with hs | hs <;> rw [hs] at hb <;> cases hb
    | closesSingle _ hq => rcases hs with hs | hs <;> rw [hs] at hq <;> cases hq
    | key hk => rcases hs with hs | hs <;> rcases hk with hk | hk <;> rw [hs] at hk <;> cases hk.1
    | found _ hk =>
      rcases hs with hs | hs <;> rcases hk with hk | hk <;> rw [hs] at hk <;> cases hk.1
  | goes h ht hb ih =>
    obtain ⟨c, hc, hmove⟩ := scanTurn_cases h.inBang.running ht
    exact ih.move h.inBang hb hc hmove

/-- Every state inside an expansion was reached from one that met its `!`. -/
theorem Scans.expanding (h : Scans env bbuf text s) (hin : InBang s) :
    ∃ s', Scans env bbuf text s' ∧ Expanding env text s' s := by
  induction h with
  | start h =>
    obtain ⟨-, hline, -⟩ := scanInit_start h
    simp [InBang, hline] at hin
  | @turn s t h hrun ht ih =>
    by_cases hs : InBang s
    · obtain ⟨s', hs', hexp⟩ := ih hs
      exact ⟨s', hs', .goes hexp ht hin⟩
    · refine ⟨s, h, ?_⟩
      have hsound := h.sound
      obtain ⟨c, -, hmove⟩ := scanTurn_cases hrun ht
      cases hmove with
      | meets hq => exact .meets hq ht rfl
      | ends | slash | escaped | opensSingle | opensDouble | closesDouble | unterminated | previous
      | noBang | notFound => simp [InBang] at hin
      | char => exact absurd hin hs
      | closesSingle _ hq =>
        rcases hsound.pushed (Or.inl hq) with hp | hp <;> simp [InBang, hp] at hin
      | number hq | string hq => exact absurd (Or.inl hq) hs
      | key hk => exact absurd hin hs
      | found _ hk => exact absurd (inBang_of_key hk) hs

end Console
