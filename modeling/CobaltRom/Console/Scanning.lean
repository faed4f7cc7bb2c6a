import CobaltRom.Console.Readline

/-! The turns of the state machine of `readline`, and the states it reaches. -/
namespace Console

/-- What one turn of a running machine does with the character `c`. -/
inductive Move (env : ScanEnv) (c : UInt8) (s : Scan) : Scan → Prop
  | ends (hs : s.state = .line) (hc : c = 0) :
    Move env c s { s with ptr := s.ptr + 1, state := .success }
  | char {r : Int} {b : Strbuf} (hb : strbufAppendc env.heap s.buf c = some (r, b))
    (hs : s.state = .line ∧ c ≠ 0 ∧ c ≠ chBang ∧ c ≠ chBackslash ∧ c ≠ chSquote ∧ c ≠ chDquote ∨
      s.state = .sqstr ∧ c ≠ chSquote ∧ c ≠ 0 ∨
      s.state = .dqstr ∧ c ≠ chDquote ∧ c ≠ 0 ∧ c ≠ chBang ∧ c ≠ chSquote) :
    Move env c s { s with ptr := s.ptr + 1, buf := b }
  | meets (hs : s.state = .line ∨ s.state = .dqstr) (hc : c = chBang) :
    Move env c s { s with ptr := s.ptr + 1, pushed := s.state, state := .bang }
  | slash (hs : s.state = .line) (hc : c = chBackslash) :
    Move env c s { s with ptr := s.ptr + 1, state := .slashesc }
  | escaped {r : Int} {b : Strbuf} (hb : strbufAppendc env.heap s.buf c = some (r, b))
    (hs : s.state = .slashesc) : Move env c s { s with ptr := s.ptr + 1, buf := b, state := .line }
  | opensSingle {r : Int} {b : Strbuf} (hb : strbufAppendc env.heap s.buf c = some (r, b))
    (hs : s.state = .line ∨ s.state = .dqstr) (hc : c = chSquote) :
    Move env c s { s with ptr := s.ptr + 1, buf := b, pushed := s.state, state := .sqstr }
  | closesSingle {r : Int} {b : Strbuf} (hb : strbufAppendc env.heap s.buf c = some (r, b))
    (hs : s.state = .sqstr) (hc : c = chSquote) :
    Move env c s { s with ptr := s.ptr + 1, buf := b, state := s.pushed }
  | opensDouble {r : Int} {b : Strbuf} (hb : strbufAppendc env.heap s.buf c = some (r, b))
    (hs : s.state = .line) (hc : c = chDquote) :
    Move env c s { s with ptr := s.ptr + 1, buf := b, state := .dqstr }
  | closesDouble {r : Int} {b : Strbuf} (hb : strbufAppendc env.heap s.buf c = some (r, b))
    (hs : s.state = .dqstr) (hc : c = chDquote) :
    Move env c s { s with ptr := s.ptr + 1, buf := b, state := .line }
  | unterminated {out : List UInt8} (hs : s.state = .sqstr ∨ s.state = .dqstr) (hc : c = 0) :
    Move env c s { s with ptr := s.ptr + 1, out := out, state := .fail }
  | previous {r : Int} {b : Strbuf} {p : List UInt8}
    (hb : strbufAppend env.heap s.buf p = some (r, b)) (hs : s.state = .bang) (hc : c = chBang)
    (hp : histlookupNum env.hist (env.hist.histnum - 1) = some p) :
    Move env c s { s with ptr := s.ptr + 1, buf := b, bangflag := true, state := .line }
  | number (hs : s.state = .bang) (hc : c ≠ chBang) (hd : Ctype.isdigit env.before c = true) :
    Move env c s { s with bangflag := true, state := .bangnum }
  | string (hs : s.state = .bang) (hc : c ≠ chBang) (hd : Ctype.isdigit env.before c = false)
    (ha : Ctype.isalnum env.before c = true) :
    Move env c s { s with bangflag := true, state := .bangstr }
  | noBang {flag : Bool} {out : List UInt8} (hs : s.state = .bang)
    (hc : c = chBang ∧ histlookupNum env.hist (env.hist.histnum - 1) = none ∨
      c ≠ chBang ∧ Ctype.isdigit env.before c = false ∧ Ctype.isalnum env.before c = false) :
    Move env c s { s with ptr := s.ptr + 1, bangflag := flag, out := out, state := .fail }
  | key (hs : s.state = .bangnum ∧ Ctype.isdigit env.before c = true ∨
      s.state = .bangstr ∧ c ≠ 0 ∧ Ctype.isspace env.before c = false) (hbi : s.bi + 1 < bbufsz) :
    Move env c s { s with
      ptr := s.ptr + 1
      bbuf := ⟨(s.bbuf.val.set s.bi c).set (s.bi + 1) 0, by simp [s.bbuf.property]⟩
      bi := s.bi + 1 }
  | found {r : Int} {b : Strbuf} {p : List UInt8}
    (hb : strbufAppend env.heap s.buf p = some (r, b))
    (hs : s.state = .bangnum ∧ Ctype.isdigit env.before c = false ∨
      s.state = .bangstr ∧ (c = 0 ∨ Ctype.isspace env.before c = true)) :
    Move env c s { s with buf := b, state := s.pushed, bi := 0 }
  | notFound {out : List UInt8}
    (hs : s.state = .bangnum ∧ Ctype.isdigit env.before c = false ∨
      s.state = .bangstr ∧ (c = 0 ∨ Ctype.isspace env.before c = true)) :
    Move env c s { s with ptr := s.ptr + 1, out := out, state := .fail, bi := 0 }

variable {env : ScanEnv} {s t : Scan} {c : UInt8} {raw : Option Block} {f : Fault}
  {str : List UInt8}

theorem putChar_ok (h : putChar env c s = .ok t) :
    ∃ r b, strbufAppendc env.heap s.buf c = some (r, b) ∧ t = { s with buf := b } := by
  unfold putChar at h
  split at h
  · cases h
  · rename_i r b hb
    cases h
    exact ⟨r, b, hb, rfl⟩

theorem putStr_ok (h : putStr env str s = .ok t) :
    ∃ r b, strbufAppend env.heap s.buf str = some (r, b) ∧ t = { s with buf := b } := by
  unfold putStr at h
  split at h
  · cases h
  · rename_i r b hb
    cases h
    exact ⟨r, b, hb, rfl⟩

theorem map_ok {α β : Type} {x : Except Fault α} {g : α → β} {y : β} (h : x.map g = .ok y) :
    ∃ a, x = .ok a ∧ g a = y := by
  cases x with
  | error e => cases h
  | ok a =>
    cases h
    exact ⟨a, rfl, rfl⟩

theorem lineTurn_move (hs : s.state = .line)
    (h : lineTurn env c { s with ptr := s.ptr + 1 } = .ok t) : Move env c s t := by
  unfold lineTurn at h
  split at h
  · rename_i h0
    cases h
    exact .ends hs h0
  split at h
  · rename_i h1
    cases h
    exact .meets (Or.inl hs) h1
  split at h
  · rename_i h2
    cases h
    exact .slash hs h2
  split at h
  · rename_i h3
    obtain ⟨u, hu, rfl⟩ := map_ok h
    obtain ⟨r, b, hb, rfl⟩ := putChar_ok hu
    exact .opensSingle hb (Or.inl hs) h3
  split at h
  · rename_i h4
    obtain ⟨u, hu, rfl⟩ := map_ok h
    obtain ⟨r, b, hb, rfl⟩ := putChar_ok hu
    exact .opensDouble hb hs h4
  · rename_i h0 h1 h2 h3 h4
    obtain ⟨r, b, hb, rfl⟩ := putChar_ok h
    exact .char hb (Or.inl ⟨hs, h0, h1, h2, h3, h4⟩)

theorem bangTurn_move (hs : s.state = .bang)
    (h : bangTurn env c { s with ptr := s.ptr + 1 } = .ok t) : Move env c s t := by
  unfold bangTurn at h
  split at h
  · rename_i h0
    simp only at h
    split at h
    · rename_i p hp
      obtain ⟨u, hu, rfl⟩ := map_ok h
      obtain ⟨r, b, hb, rfl⟩ := putStr_ok hu
      exact .previous hb hs h0 hp
    · rename_i hp
      cases h
      exact .noBang hs (Or.inl ⟨h0, hp⟩)
  split at h
  · rename_i h0 hd
    cases h
    exact .number hs h0 hd
  split at h
  · rename_i h0 hd ha
    cases h
    exact .string hs h0 (Bool.of_not_eq_true hd) ha
  · rename_i h0 hd ha
    cases h
    exact .noBang hs (Or.inr ⟨h0, Bool.of_not_eq_true hd, Bool.of_not_eq_true ha⟩)

theorem putKey_move (hs : s.state = .bangnum ∧ Ctype.isdigit env.before c = true ∨
      s.state = .bangstr ∧ c ≠ 0 ∧ Ctype.isspace env.before c = false)
    (h : putKey c { s with ptr := s.ptr + 1 } = .ok t) : Move env c s t := by
  unfold putKey at h
  split at h
  · rename_i hbi
    cases h
    exact .key hs hbi
  · cases h

theorem bangnumTurn_move (hs : s.state = .bangnum)
    (h : bangnumTurn env c { s with ptr := s.ptr + 1 } = .ok t) : Move env c s t := by
  unfold bangnumTurn at h
  split at h
  · rename_i hd
    exact putKey_move (Or.inl ⟨hs, hd⟩) h
  · rename_i hd
    have hd' := Bool.of_not_eq_true hd
    split at h
    · cases h
    · split at h
      · obtain ⟨u, hu, rfl⟩ := map_ok h
        obtain ⟨r, b, hb, rfl⟩ := putStr_ok hu
        exact .found hb (Or.inl ⟨hs, hd'⟩)
      · cases h
        exact .notFound (Or.inl ⟨hs, hd'⟩)

theorem bangstrTurn_move (hs : s.state = .bangstr)
    (h : bangstrTurn env c { s with ptr := s.ptr + 1 } = .ok t) : Move env c s t := by
  unfold bangstrTurn at h
  split at h
  · rename_i hk
    exact putKey_move (Or.inr ⟨hs, hk⟩) h
  · rename_i hk
    have hk' : c = 0 ∨ Ctype.isspace env.before c = true := by
      by_cases h0 : c = 0
      · exact Or.inl h0
      · exact Or.inr (by simpa [h0] using hk)
    split at h
    · obtain ⟨u, hu, rfl⟩ := map_ok h
      obtain ⟨r, b, hb, rfl⟩ := putStr_ok hu
      exact .found hb (Or.inr ⟨hs, hk'⟩)
    · cases h
      exact .notFound (Or.inr ⟨hs, hk'⟩)

theorem sqstrTurn_move (hs : s.state = .sqstr)
    (h : sqstrTurn env c { s with ptr := s.ptr + 1 } = .ok t) : Move env c s t := by
  unfold sqstrTurn at h
  split at h
  · rename_i h0
    obtain ⟨u, hu, rfl⟩ := map_ok h
    obtain ⟨r, b, hb, rfl⟩ := putChar_ok hu
    exact .closesSingle hb hs h0
  split at h
  · rename_i h0
    cases h
    exact .unterminated (Or.inl hs) h0
  · rename_i h0 h1
    obtain ⟨r, b, hb, rfl⟩ := putChar_ok h
    exact .char hb (Or.inr (Or.inl ⟨hs, h0, h1⟩))

theorem dqstrTurn_move (hs : s.state = .dqstr)
    (h : dqstrTurn env c { s with ptr := s.ptr + 1 } = .ok t) : Move env c s t := by
  unfold dqstrTurn at h
  split at h
  · rename_i h0
    obtain ⟨u, hu, rfl⟩ := map_ok h
    obtain ⟨r, b, hb, rfl⟩ := putChar_ok hu
    exact .closesDouble hb hs h0
  split at h
  · rename_i h0
    cases h
    exact .unterminated (Or.inr hs) h0
  split at h
  · rename_i h0
    cases h
    exact .meets (Or.inr hs) h0
  split at h
  · rename_i h0
    obtain ⟨u, hu, rfl⟩ := map_ok h
    obtain ⟨r, b, hb, rfl⟩ := putChar_ok hu
    exact .opensSingle hb (Or.inr hs) h0
  · rename_i h0 h1 h2 h3
    obtain ⟨r, b, hb, rfl⟩ := putChar_ok h
    exact .char hb (Or.inr (Or.inr ⟨hs, h0, h1, h2, h3⟩))

theorem not_ended (hrun : s.ended = false) : s.state ≠ .success ∧ s.state ≠ .fail := by
  simpa [Scan.ended] using hrun

/-- A turn that does not fault is one of the moves. -/
theorem scanTurn_move (hrun : s.ended = false) (hc : load raw s.ptr = some c)
    (h : scanTurn env raw s = .ok t) : Move env c s t := by
  unfold scanTurn at h
  rw [hc] at h
  simp only at h
  split at h
  · rename_i hs
    exact lineTurn_move hs h
  · rename_i hs
    exact bangTurn_move hs h
  · rename_i hs
    exact bangnumTurn_move hs h
  · rename_i hs
    exact bangstrTurn_move hs h
  · rename_i hs
    obtain ⟨u, hu, rfl⟩ := map_ok h
    obtain ⟨r, b, hb, rfl⟩ := putChar_ok hu
    exact .escaped hb hs
  · rename_i hs
    exact sqstrTurn_move hs h
  · rename_i hs
    exact dqstrTurn_move hs h
  · rename_i hs
    exact absurd hs (not_ended hrun).1
  · rename_i hs
    exact absurd hs (not_ended hrun).2

/-! ### The raw line and the result -/

variable {text rest : List UInt8} {i : Nat} {bbuf : KeyBuf}

theorem load_cells (text : List UInt8) (i : Nat) :
    load (some (cells text)) i = (text ++ [0])[i]? := by
  rw [load, if_pos (Int.natCast_nonneg i), Option.bind_some, Int.toNat_natCast, cells,
    show text.map some ++ [some 0] = (text ++ [0]).map some by rw [List.map_append]; rfl,
    List.getElem?_map]
  cases (text ++ [0])[i]? <;> rfl

theorem load_of_drop (h : text.drop i = c :: rest) : load (some (cells text)) i = some c := by
  have hi : i < text.length := by
    by_contra hle
    rw [List.drop_of_length_le (by omega)] at h
    cases h
  have hget : text[i]? = some c := by
    rw [← List.head?_drop, h, List.head?_cons]
  rw [load_cells, List.getElem?_append_left hi, hget]

theorem load_end (text : List UInt8) : load (some (cells text)) text.length = some 0 := by
  rw [load_cells, List.getElem?_append_right (le_refl _), Nat.sub_self]
  rfl

theorem load_some (h : load (some (cells text)) i = some c) :
    (∃ rest, text.drop i = c :: rest) ∨ i = text.length ∧ c = 0 := by
  rw [load_cells] at h
  rcases Nat.lt_trichotomy i text.length with hlt | rfl | hgt
  · rw [List.getElem?_append_left hlt, List.getElem?_eq_getElem hlt, Option.some.injEq] at h
    exact Or.inl ⟨_, h ▸ List.drop_eq_getElem_cons hlt⟩
  · rw [List.getElem?_append_right (le_refl _), Nat.sub_self] at h
    exact Or.inr ⟨rfl, (Option.some.inj h).symm⟩
  · rw [List.getElem?_eq_none (by rw [List.length_append, List.length_singleton]; omega)] at h
    cases h

theorem load_none (h : load (some (cells text)) i = none) : text.length < i := by
  rw [load_cells, List.getElem?_eq_none_iff, List.length_append, List.length_singleton] at h
  omega

theorem drop_succ (h : text.drop i = c :: rest) : text.drop (i + 1) = rest := by
  rw [← List.drop_drop, h, List.drop_one, List.tail_cons]

/-- The result buffer holds some text after every append, served or not. -/
theorem strbufAppend_any {b : Strbuf} {out : List UInt8} (heap : Heap) (str : List UInt8)
    (h : Holds b out) : ∃ r b' out', strbufAppend heap b str = some (r, b') ∧ Holds b' out' := by
  by_cases hheap : heap ((out ++ str).length + 1) = true
  · obtain ⟨b', hb, hb'⟩ := strbufAppend_grow heap str h hheap
    exact ⟨_, b', _, hb, hb'⟩
  · have hno : realloc heap b.buf (b.len + str.length + 1) = none := by
      have hsz : b.len + str.length + 1 = (((out ++ str).length + 1 : Nat) : Int) := by
        rw [h.len]
        simp
      rw [realloc, hsz, Int.toNat_natCast, if_neg fun hn => hheap hn.2]
    refine ⟨-1, b, out, ?_, h⟩
    rw [strbufAppend, if_pos h.grow, hno]

theorem strbufAppend_holds {b b' : Strbuf} {out : List UInt8} {heap : Heap} {r : Int}
    (h : Holds b out) (hb : strbufAppend heap b str = some (r, b')) : ∃ out', Holds b' out' := by
  obtain ⟨r', b'', out', hb', h'⟩ := strbufAppend_any heap str h
  rw [hb, Option.some.injEq, Prod.mk.injEq] at hb'
  exact ⟨out', hb'.2 ▸ h'⟩

/-- The state machine on a raw line: the states it goes through. -/
inductive Scans (env : ScanEnv) (bbuf : KeyBuf) (text : List UInt8) : Scan → Prop
  | start {s : Scan} (h : scanInit env bbuf = .ok s) : Scans env bbuf text s
  | turn {s t : Scan} (h : Scans env bbuf text s) (hrun : s.ended = false)
      (ht : scanTurn env (some (cells text)) s = .ok t) : Scans env bbuf text t

theorem scanInit_ok (env : ScanEnv) (bbuf : KeyBuf) : ∃ s, scanInit env bbuf = .ok s ∧
    Holds s.buf [] ∧ s.state = .line ∧ s.ptr = 0 ∧ s.bi = 0 := by
  cases hm : malloc env.heap 1 with
  | none =>
    refine ⟨_, by rw [scanInit, hm]; rfl, ⟨rfl, rfl, Or.inr ⟨rfl, rfl⟩⟩, rfl, rfl, rfl⟩
  | some p =>
    refine ⟨_, by rw [scanInit, hm]; rfl, ⟨rfl, rfl, Or.inl rfl⟩, rfl, rfl, rfl⟩

theorem scanInit_start (h : scanInit env bbuf = .ok s) :
    Holds s.buf [] ∧ s.state = .line ∧ s.ptr = 0 ∧ s.bi = 0 := by
  obtain ⟨s', hs', hstart⟩ := scanInit_ok env bbuf
  rw [h] at hs'
  cases hs'
  exact hstart

theorem Move.holds {out : List UInt8} (h : Move env c s t) (hs : Holds s.buf out) :
    ∃ out', Holds t.buf out' := by
  cases h with
  | ends | meets | slash | unterminated | number | string | noBang | key | notFound =>
    exact ⟨out, hs⟩
  | char hb | escaped hb | opensSingle hb | closesSingle hb | opensDouble hb | closesDouble hb
  | previous hb | found hb => exact strbufAppend_holds hs hb

/-- A turn of a running machine reads a character and moves. -/
theorem scanTurn_cases (hrun : s.ended = false) (h : scanTurn env (some (cells text)) s = .ok t) :
    ∃ c, load (some (cells text)) s.ptr = some c ∧ Move env c s t := by
  cases hc : load (some (cells text)) s.ptr with
  | none =>
    rw [scanTurn, hc] at h
    cases h
  | some c => exact ⟨c, rfl, scanTurn_move hrun hc h⟩

theorem Scans.holds (h : Scans env bbuf text s) : ∃ out, Holds s.buf out := by
  induction h with
  | start h => exact ⟨[], (scanInit_start h).1⟩
  | turn _ hrun ht ih =>
    obtain ⟨out, hout⟩ := ih
    obtain ⟨c, -, hmove⟩ := scanTurn_cases hrun ht
    exact hmove.holds hout

/-! ### Faults -/

/-- The machine collects the key of an expansion and `c` belongs to it. -/
def Collects (env : ScanEnv) (s : Scan) (c : UInt8) : Prop :=
  s.state = .bangnum ∧ Ctype.isdigit env.before c = true ∨
    s.state = .bangstr ∧ c ≠ 0 ∧ Ctype.isspace env.before c = false

theorem putChar_total {out : List UInt8} (env : ScanEnv) (hh : Holds s.buf out) (c : UInt8) :
    ∃ b, putChar env c s = .ok { s with buf := b } := by
  obtain ⟨r, b, out', hb, -⟩ := strbufAppend_any env.heap (charStr c) hh
  exact ⟨b, by rw [putChar, strbufAppendc, hb]⟩

theorem putStr_total {out : List UInt8} (env : ScanEnv) (hh : Holds s.buf out) (str : List UInt8) :
    ∃ b, putStr env str s = .ok { s with buf := b } := by
  obtain ⟨r, b, out', hb, -⟩ := strbufAppend_any env.heap str hh
  exact ⟨b, by rw [putStr, hb]⟩

theorem putKey_error (h : putKey c s = .error f) : f = .key ∧ ¬ s.bi + 1 < bbufsz := by
  unfold putKey at h
  split at h
  · cases h
  · rename_i hbi
    cases h
    exact ⟨rfl, hbi⟩

/-- A fault is a read behind the raw line, a key too long for `bbuf`, or a number that
`stoli` does not end on. -/
theorem scanTurn_error {out : List UInt8} (hh : Holds s.buf out)
    (h : scanTurn env raw s = .error f) :
    load raw s.ptr = none ∧ f = .line ∨
      ∃ c, load raw s.ptr = some c ∧ f = .key ∧
        (Collects env s c ∧ ¬ s.bi + 1 < bbufsz ∨
          s.state = .bangnum ∧ Ctype.isdigit env.before c = false ∧ bangNumber env s = none) := by
  cases hc : load raw s.ptr with
  | none =>
    rw [scanTurn, hc] at h
    cases h
    exact Or.inl ⟨rfl, rfl⟩
  | some c =>
    right
    refine ⟨c, rfl, ?_⟩
    -- appending to the result never faults
    have hput : ∀ {u : Scan} {g : Scan → Scan}, (putChar env c u).map g = .error f →
        u.buf ≠ s.buf := by
      intro u g hf hu
      obtain ⟨b, hb⟩ := putChar_total (s := u) env (hu ▸ hh) c
      rw [hb] at hf
      cases hf
    have hput' : ∀ {u : Scan}, putChar env c u = .error f → u.buf ≠ s.buf := by
      intro u hf
      exact hput (g := id) (by rw [hf]; rfl)
    have hstr : ∀ {u : Scan} {p : List UInt8} {g : Scan → Scan}, (putStr env p u).map g = .error f →
        u.buf ≠ s.buf := by
      intro u p g hf hu
      obtain ⟨b, hb⟩ := putStr_total (s := u) env (hu ▸ hh) p
      rw [hb] at hf
      cases hf
    unfold scanTurn at h
    rw [hc] at h
    simp only at h
    split at h
    · unfold lineTurn at h
      split at h
      · cases h
      split at h
      · cases h
      split at h
      · cases h
      split at h
      · exact (hput h rfl).elim
      split at h
      · exact (hput h rfl).elim
      · exact (hput' h rfl).elim
    · unfold bangTurn at h
      split at h
      · simp only at h
        split at h
        · exact (hstr h rfl).elim
        · cases h
      split at h
      · cases h
      split at h
      · cases h
      · cases h
    · rename_i hs
      unfold bangnumTurn at h
      split at h
      · rename_i hd
        obtain ⟨rfl, hbi⟩ := putKey_error h
        exact ⟨rfl, Or.inl ⟨Or.inl ⟨hs, hd⟩, hbi⟩⟩
      · rename_i hd
        split at h
        · rename_i hnum
          cases h
          exact ⟨rfl, Or.inr ⟨hs, Bool.of_not_eq_true hd, hnum⟩⟩
        · split at h
          · exact (hstr h rfl).elim
          · cases h
    · rename_i hs
      unfold bangstrTurn at h
      split at h
      · rename_i hk
        obtain ⟨rfl, hbi⟩ := putKey_error h
        exact ⟨rfl, Or.inl ⟨Or.inr ⟨hs, hk⟩, hbi⟩⟩
      · split at h
        · exact (hstr h rfl).elim
        · cases h
    · exact (hput h rfl).elim
    · unfold sqstrTurn at h
      split at h
      · exact (hput h rfl).elim
      split at h
      · cases h
      · exact (hput' h rfl).elim
    · unfold dqstrTurn at h
      split at h
      · exact (hput h rfl).elim
      split at h
      · cases h
      split at h
      · cases h
      split at h
      · exact (hput h rfl).elim
      · exact (hput' h rfl).elim
    · cases h
    · cases h

end Console
