import CobaltRom.Console.RawRead

/-! The raw line input against the obvious editor: a line of characters and a cursor. -/
namespace Console

open Loop

/-- A line and a cursor inside it, with the overwrite mode. -/
structure Editor where
  text : List UInt8
  cursor : Nat
  overwrite : Bool
  inside : cursor ≤ text.length

/-- The control codes `raw_read` acts on, and NUL. -/
def controls : List UInt8 :=
  [0, chCr, chNl, chBs, chDel, chTab, chEsc, ctrl 'A', ctrl 'E', ctrl 'U', ctrl 'W', ctrl 'K',
    ctrl 'D', ctrl 'P', ctrl 'N', ctrl 'B', ctrl 'F', ctrl 'C', ctrl 'L']

/-- The bytes of `ESC [ x` that `raw_read` knows. -/
def csiCodes : List UInt8 :=
  [arrowUp, arrowDown, arrowRight, arrowLeft, keyInsert, keyHome, keyEnd]

inductive Key
  | char (c : UInt8) (h : c ∉ controls)
  | bs
  | del
  | left
  | ctrlB
  | right
  | ctrlF
  | home
  | ctrlA
  | toEnd
  | ctrlE
  | ctrlU
  | ctrlW
  | ctrlK
  | ctrlD
  | insert
  | esc (c : UInt8) (h : c ≠ chEsc2 ∧ c ≠ chZ)
  | escZ (c : UInt8) (h : c ≠ chZ)
  | csi (c : UInt8) (h : c ∉ csiCodes)
  | csiPad (x c : UInt8) (hx : x ∈ [keyInsert, keyHome, keyEnd]) (hc : c ≠ ctrlPad)

/-- The bytes a key sends. -/
def Key.bytes : Key → List UInt8
  | .char c _ => [c]
  | .bs => [chBs]
  | .del => [chDel]
  | .left => [chEsc, chEsc2, arrowLeft]
  | .ctrlB => [ctrl 'B']
  | .right => [chEsc, chEsc2, arrowRight]
  | .ctrlF => [ctrl 'F']
  | .home => [chEsc, chEsc2, keyHome, ctrlPad]
  | .ctrlA => [ctrl 'A']
  | .toEnd => [chEsc, chEsc2, keyEnd, ctrlPad]
  | .ctrlE => [ctrl 'E']
  | .ctrlU => [ctrl 'U']
  | .ctrlW => [ctrl 'W']
  | .ctrlK => [ctrl 'K']
  | .ctrlD => [ctrl 'D']
  | .insert => [chEsc, chEsc2, keyInsert, ctrlPad]
  | .esc c _ => [chEsc, c]
  | .escZ c _ => [chEsc, chZ, c]
  | .csi c _ => [chEsc, chEsc2, c]
  | .csiPad x c _ _ => [chEsc, chEsc2, x, c]

namespace Editor

variable (e : Editor)

/-- Insert at the cursor, or replace the character under it when overwriting. -/
def typed (c : UInt8) : Editor where
  text := e.text.take e.cursor ++ c :: e.text.drop (if e.overwrite then e.cursor + 1 else e.cursor)
  cursor := e.cursor + 1
  overwrite := e.overwrite
  inside := by
    have := e.inside
    simp
    omega

def deleteBefore : Editor where
  text := e.text.take (e.cursor - 1) ++ e.text.drop e.cursor
  cursor := e.cursor - 1
  overwrite := e.overwrite
  inside := by
    have := e.inside
    simp
    omega

def deleteUnder : Editor where
  text := e.text.take e.cursor ++ e.text.drop (e.cursor + 1)
  cursor := e.cursor
  overwrite := e.overwrite
  inside := by
    have := e.inside
    simp
    omega

def deleteToBegin : Editor where
  text := e.text.drop e.cursor
  cursor := 0
  overwrite := e.overwrite
  inside := by omega

def deleteToEnd : Editor where
  text := e.text.take e.cursor
  cursor := e.cursor
  overwrite := e.overwrite
  inside := by
    have := e.inside
    simp
    omega

/-- Move the cursor, clamped to the line. -/
def moveTo (pos : Nat) : Editor where
  text := e.text
  cursor := min pos e.text.length
  overwrite := e.overwrite
  inside := by omega

def toggle : Editor := { e with overwrite := !e.overwrite }

def press : Key → Editor
  | .char c _ => e.typed c
  | .bs | .del => e.deleteBefore
  | .left | .ctrlB => e.moveTo (e.cursor - 1)
  | .right | .ctrlF => e.moveTo (e.cursor + 1)
  | .home | .ctrlA => e.moveTo 0
  | .toEnd | .ctrlE => e.moveTo e.text.length
  | .ctrlU | .ctrlW => e.deleteToBegin
  | .ctrlK => e.deleteToEnd
  | .ctrlD => e.deleteUnder
  | .insert => e.toggle
  | .esc _ _ | .escZ _ _ | .csi _ _ | .csiPad _ _ _ _ => e

/-- The empty line. -/
def empty (overwrite : Bool) : Editor := ⟨[], 0, overwrite, le_refl 0⟩

end Editor

/-- A character whose echo moves the cursor one place to the right. -/
def Plain (c : UInt8) : Prop := c ≠ chBs ∧ c ≠ chNl ∧ c ≠ chCr ∧ c ≠ 0

/-- The globals of `raw_read` hold the line `a ++ c` with the cursor between `a` and `c`. -/
structure Line (s : Raw) (a c : List UInt8) : Prop where
  pos : s.rawpos = a.length
  buf : Holds s.rawbuf (a ++ c)
  plain : ∀ x, x ∈ a ++ c → Plain x

/-- Nothing but the line, the cursor and the echo has changed. -/
structure Same (s t : Raw) : Prop where
  overwrite : t.overwrite = s.overwrite
  done : t.done = s.done
  input : t.input = s.input
  prevs : t.prevs = s.prevs

variable {env : Env} {s t u : Raw} {a c text : List UInt8} {x : UInt8} {n : Nat}

theorem Same.refl (s : Raw) : Same s s := ⟨rfl, rfl, rfl, rfl⟩

/-- Only the cursor has moved. -/
structure Moved (s t : Raw) (pos : Int) : Prop where
  pos : t.rawpos = pos
  buf : t.rawbuf = s.rawbuf
  same : Same s t

theorem Same.trans (h : Same s t) (h' : Same t u) : Same s u :=
  ⟨h'.overwrite.trans h.overwrite, h'.done.trans h.done, h'.input.trans h.input,
    h'.prevs.trans h.prevs⟩

theorem Moved.trans {p q : Int} (h : Moved s t p) (h' : Moved t u q) : Moved s u q :=
  ⟨h'.pos, h'.buf.trans h.buf, h.same.trans h'.same⟩

theorem Moved.line {a' c' : List UInt8} {p : Int} (h : Moved s t p) (hs : Line s a c)
    (heq : a' ++ c' = a ++ c) (hp : p = a'.length) : Line t a' c' := by
  refine ⟨h.pos.trans hp, ?_, ?_⟩
  · rw [h.buf, heq]
    exact hs.buf
  · rw [heq]
    exact hs.plain

theorem moved_plain (h : Plain x) : Moved s (rawPutc x s) (s.rawpos + 1) := by
  obtain ⟨h1, h2, h3, -⟩ := h
  simp only [rawPutc, putc, h1, h2, h3, if_false, or_self]
  exact ⟨rfl, rfl, rfl, rfl, rfl, rfl⟩

theorem moved_bs (s : Raw) : Moved s (rawPutc chBs s) (s.rawpos - 1) := by
  simp only [rawPutc, putc, if_true]
  exact ⟨rfl, rfl, rfl, rfl, rfl, rfl⟩

theorem load_text (h : Holds s.rawbuf (a ++ x :: c)) : load s.rawbuf.buf a.length = some x := by
  rcases h.buf with hb | ⟨-, hnil⟩
  · simp [load, hb, cells]
  · simp at hnil

/-- The echo loop of `raw_cursor` walks over `m`. -/
theorem cursorRight (m : List UInt8) (hm : m.length ≤ n) (h : Line s a (m ++ c)) (p : Int)
    (hp : p = (a ++ m).length) :
    ∃ t, whileM (fun s : Raw => decide (p > s.rawpos))
        (fun s => (load s.rawbuf.buf s.rawpos).map fun c => rawPutc c s) n s = some t ∧
      Moved s t p := by
  induction m generalizing s a n with
  | nil =>
    have hpos : s.rawpos = p := by simp [h.pos, hp]
    exact ⟨s, whileM_stop (by simp [hpos]), hpos, rfl, Same.refl s⟩
  | cons y m ih =>
    obtain ⟨k, rfl⟩ : ∃ k, n = k + 1 := ⟨n - 1, by simp at hm; omega⟩
    have hy : Plain y := h.plain y (by simp)
    have hload : load s.rawbuf.buf s.rawpos = some y := by
      rw [h.pos]
      exact load_text (by simpa using h.buf)
    have hmove := moved_plain (s := s) hy
    have hline : Line (rawPutc y s) (a ++ [y]) (m ++ c) :=
      hmove.line h (by simp) (by simp [h.pos])
    obtain ⟨t, ht, hmt⟩ := ih (by simpa using hm) hline (by simp [hp])
    refine ⟨t, ?_, hmove.trans hmt⟩
    rw [whileM_turn (by simp [h.pos, hp]) (by rw [hload, Option.map_some]), ht]

/-- The backspace loop of `raw_cursor`. -/
theorem cursorLeft (k : Nat) (hk : k ≤ n) (p : Int) (h : s.rawpos = p + k) :
    ∃ t, whileM (fun s : Raw => decide (p < s.rawpos)) (fun s => some (rawPutc chBs s)) n s =
      some t ∧ Moved s t p := by
  induction k generalizing s n with
  | zero =>
    have hpos : s.rawpos = p := by simpa using h
    exact ⟨s, whileM_stop (by simp [hpos]), hpos, rfl, Same.refl s⟩
  | succ k ih =>
    obtain ⟨j, rfl⟩ : ∃ j, n = j + 1 := ⟨n - 1, by omega⟩
    have hmove := moved_bs s
    have hcond : decide (p < s.rawpos) = true := by
      rw [h]
      simp
    obtain ⟨t, ht, hmt⟩ := ih (s := rawPutc chBs s) (n := j) (by omega) (by
      rw [hmove.pos, h]
      push_cast
      ring)
    refine ⟨t, ?_, hmove.trans hmt⟩
    simp only [whileM, hcond, if_true, Option.bind_some, ht]

/-- A move inside the line ends at the position asked for. -/
theorem rawCursor_line (env : Env) (off : Int) (whence : Whence) (a' c' : List UInt8)
    (h : Line s a c)
    (heq : a' ++ c' = a ++ c) (ht : newpos s off whence = a'.length)
    (hfuel : (a ++ c).length ≤ env.fuel) :
    ∃ t, rawCursor env off whence s = some ((a'.length : Int), t) ∧ Line t a' c' ∧ Same s t := by
  have hlen := congrArg List.length heq
  simp only [List.length_append] at hlen hfuel
  have hin : ¬((a'.length : Int) < 0 ∨ (a'.length : Int) > s.rawbuf.len) := by
    rw [h.buf.len]
    simp
    omega
  obtain ⟨t₁, h₁, hm₁, k, hk, hpos⟩ :
    ∃ t₁, whileM (fun s : Raw => decide ((a'.length : Int) > s.rawpos))
      (fun s => (load s.rawbuf.buf s.rawpos).map fun c => rawPutc c s) env.fuel s = some t₁ ∧
      Moved s t₁ t₁.rawpos ∧ ∃ k : Nat, k ≤ env.fuel ∧ t₁.rawpos = a'.length + k := by
    rcases Nat.le_total a.length a'.length with hle | hle
    · obtain ⟨m, rfl⟩ : ∃ m, a' = a ++ m := by
        have := List.prefix_of_prefix_length_le (List.prefix_append a c)
          (heq ▸ List.prefix_append a' c') hle
        obtain ⟨m, hm⟩ := this
        exact ⟨m, hm.symm⟩
      have hc : c = m ++ c' := by simpa using heq.symm
      subst hc
      obtain ⟨t, ht, hm⟩ := cursorRight m (n := env.fuel) (by simp at hfuel; omega) h _ rfl
      exact ⟨t, ht, ⟨rfl, hm.buf, hm.same⟩, 0, by omega, by simp [hm.pos]⟩
    · refine ⟨s, whileM_stop (by simp [h.pos, hle]), ⟨rfl, rfl, Same.refl s⟩,
        a.length - a'.length, by omega, ?_⟩
      rw [h.pos]
      omega
  obtain ⟨t₂, h₂, hm₂⟩ := cursorLeft k hk (a'.length : Int) hpos
  refine ⟨t₂, ?_, (hm₁.trans hm₂).line h heq rfl, (hm₁.trans hm₂).same⟩
  simp only [rawCursor, ht, if_neg hin, h₁, Option.bind_some, h₂, Option.map_some, hm₂.pos]

theorem Same.setBuf (s : Raw) (b : Strbuf) : Same s { s with rawbuf := b } := ⟨rfl, rfl, rfl, rfl⟩

theorem Plain.space : Plain chSpace := by
  unfold Plain
  decide

theorem moved_blank (s : Raw) : Moved s (rawPutc chBs (rawPutc chSpace s)) s.rawpos := by
  have h := (moved_plain (s := s) Plain.space).trans (moved_bs _)
  rwa [(moved_plain (s := s) Plain.space).pos, add_sub_cancel_right] at h

/-- `raw_backspace` removes the character before the cursor. -/
theorem rawBackspace_line (env : Env) (h : Line s (a ++ [x]) c)
    (hfuel : (a ++ x :: c).length ≤ env.fuel)
    (hheap : ∀ k, k ≤ (a ++ x :: c).length → env.heap k = true) :
    ∃ t, rawBackspace env s = some t ∧ Line t a c ∧ Same s t := by
  have hpos : s.rawpos = a.length + 1 := by simp [h.pos]
  obtain ⟨t₁, h₁, hl₁, hs₁⟩ := rawCursor_line env (-1) .cur
    (a) (x :: c) h (by simp) (by simp [newpos, hpos]) (by simpa using hfuel)
  obtain ⟨b, hb, hh⟩ := strbufDelete_grow env.heap a [x] c
    (by simpa using hl₁.buf) (by simp) (hheap _ (by simp))
  have hdel : strbufDeletec env.heap t₁.rawbuf t₁.rawpos = some (1, b) := by
    rw [strbufDeletec, hl₁.pos]
    simpa using hb
  have hl₂ : Line { t₁ with rawbuf := b } a c :=
    ⟨hl₁.pos, hh, fun y hy => hl₁.plain y (by simp at hy ⊢; tauto)⟩
  have hne : s.rawpos ≠ 0 := by omega
  by_cases hc : c = []
  · have hend : t₁.rawpos = b.len := by simp [hl₁.pos, hh.len, hc]
    refine ⟨rawPutc chBs (rawPutc chSpace { t₁ with rawbuf := b }), ?_, ?_, ?_⟩
    · simp only [rawBackspace, if_pos hne, h₁, Option.bind_some, hdel, if_pos hend]
    · exact (moved_blank _).line hl₂ rfl hl₂.pos
    · exact hs₁.trans ((Same.setBuf t₁ b).trans (moved_blank _).same)
  · have hend : ¬(t₁.rawpos = b.len) := by
      have := List.length_pos_iff.mpr hc
      rw [hl₁.pos, hh.len, List.length_append]
      omega
    have hf : (a ++ c).length ≤ env.fuel := by
      simp at hfuel ⊢
      omega
    obtain ⟨t₂, h₂, hl₃, hs₃⟩ := rawCursor_line env (0) .fromEnd
      (a ++ c) ([]) hl₂ (by simp) (by simp [newpos, hh.len]) hf
    have hl₄ := (moved_blank t₂).line hl₃ rfl hl₃.pos
    obtain ⟨t₅, h₅, hl₅, hs₅⟩ := rawCursor_line env (a.length) .set
      (a) (c) hl₄ (by simp) rfl (by simpa using hf)
    have hi : s.rawpos - 1 = a.length := by omega
    refine ⟨t₅, ?_, hl₅, ?_⟩
    · simp only [rawBackspace, if_pos hne, h₁, Option.bind_some, hdel, if_neg hend, h₂,
        hi, h₅, Option.map_some]
    · exact hs₁.trans ((Same.setBuf t₁ b).trans
        (hs₃.trans ((moved_blank t₂).same.trans hs₅)))

theorem same_beep (s : Raw) : Same s (beep s) := ⟨rfl, rfl, rfl, rfl⟩

theorem Line.beep (h : Line s a c) : Line (beep s) a c := ⟨h.pos, h.buf, h.plain⟩

/-- At the begin of the line `raw_backspace` only beeps. -/
theorem rawBackspace_begin (h : Line s [] c) : rawBackspace env s = some (beep s) := by
  simp [rawBackspace, h.pos]

/-- A move that would leave the line is refused. -/
theorem rawCursor_outside (env : Env) (off : Int) (whence : Whence)
    (h : newpos s off whence < 0 ∨ newpos s off whence > s.rawbuf.len) :
    rawCursor env off whence s = some (-1, s) := by
  rw [rawCursor, if_pos h]

theorem rawArrow_left (h : Line s a c) (hfuel : (a ++ c).length ≤ env.fuel) :
    ∃ t a' c', rawArrow env .left s = some t ∧ Line t a' c' ∧ Same s t ∧ a' ++ c' = a ++ c ∧
      a'.length = a.length - 1 := by
  rcases List.eq_nil_or_concat a with rfl | ⟨a, x, rfl⟩
  · have hout := rawCursor_outside (s := s) env (-1) .cur
      (Or.inl (by simp [newpos, h.pos]))
    refine ⟨beep s, [], c, ?_, h.beep, same_beep s, rfl, rfl⟩
    simp [rawArrow, hout]
  · rw [List.concat_eq_append] at *
    obtain ⟨t, ht, hl, hs⟩ := rawCursor_line env (-1) .cur
      (a) (x :: c) h (by simp) (by simp [newpos, h.pos]) hfuel
    refine ⟨t, a, x :: c, ?_, hl, hs, by simp, by simp⟩
    simp [rawArrow, ht]

theorem rawArrow_right (h : Line s a c) (hfuel : (a ++ c).length ≤ env.fuel) :
    ∃ t a' c', rawArrow env .right s = some t ∧ Line t a' c' ∧ Same s t ∧ a' ++ c' = a ++ c ∧
      a'.length = min (a.length + 1) (a ++ c).length := by
  cases c with
  | nil =>
    have hout := rawCursor_outside (s := s) env (1) .cur
      (Or.inr (by simp [newpos, h.pos, h.buf.len]))
    refine ⟨beep s, a, [], ?_, h.beep, same_beep s, rfl, by simp⟩
    simp [rawArrow, hout]
  | cons x c =>
    obtain ⟨t, ht, hl, hs⟩ := rawCursor_line env (1) .cur
      (a ++ [x]) (c) h (by simp) (by simp [newpos, h.pos]) hfuel
    have hpos : ¬((a ++ [x]).length : Int) < 0 := by omega
    refine ⟨t, a ++ [x], c, ?_, hl, hs, by simp, by simp⟩
    simp only [rawArrow, ht, Option.map_some, if_neg hpos]

theorem rawCursor_begin (h : Line s a c) (hfuel : (a ++ c).length ≤ env.fuel) :
    ∃ t, (rawCursor env 0 .set s).map Prod.snd = some t ∧ Line t [] (a ++ c) ∧ Same s t := by
  obtain ⟨t, ht, hl, hs⟩ := rawCursor_line env (0) .set
    ([]) (a ++ c) h rfl rfl hfuel
  exact ⟨t, by rw [ht, Option.map_some], hl, hs⟩

theorem rawCursor_toEnd (h : Line s a c) (hfuel : (a ++ c).length ≤ env.fuel) :
    ∃ t, rawCursor env 0 .fromEnd s = some (((a ++ c).length : Int), t) ∧ Line t (a ++ c) [] ∧
      Same s t :=
  rawCursor_line env _ _ _ _ h (by simp) (by simp [newpos, h.buf.len]) hfuel

/-- Repeated backspaces remove `m`, the part of the line between a position and the cursor. -/
theorem backspaces_line (env : Env) {cond : Raw → Bool}
    (hcond : ∀ (t : Raw) (m : List UInt8), Line t (a ++ m) c → cond t = decide (m ≠ []))
    (m : List UInt8) (hm : m.length ≤ n) (h : Line s (a ++ m) c)
    (hfuel : (a ++ m ++ c).length ≤ env.fuel)
    (hheap : ∀ k, k ≤ (a ++ m ++ c).length → env.heap k = true) :
    ∃ t, whileM cond (rawBackspace env) n s = some t ∧ Line t a c ∧ Same s t := by
  induction m using List.reverseRecOn generalizing s n with
  | nil =>
    have hl : Line s a c := by simpa using h
    exact ⟨s, whileM_stop (by rw [hcond s [] h]; rfl), hl, Same.refl s⟩
  | append_singleton m x ih =>
    obtain ⟨k, rfl⟩ : ∃ k, n = k + 1 := ⟨n - 1, by simp at hm; omega⟩
    obtain ⟨t, ht, hl, hs⟩ := rawBackspace_line env (a := a ++ m) (x := x) (c := c)
      (by simpa using h) (by simpa using hfuel) (by simpa using hheap)
    obtain ⟨u, hu, hl', hs'⟩ := ih (n := k) (by simpa using hm) hl
      (by simp at hfuel ⊢; omega) (fun j hj => hheap j (by simp at hj ⊢; omega))
    refine ⟨u, ?_, hl', hs.trans hs'⟩
    rw [whileM_turn (by rw [hcond s _ h]; simp) ht, hu]

/-- In overwrite mode the character behind the cursor goes first. -/
theorem rawChar_overwrite (h : Line s a c)
    (hheap : ∀ k, k ≤ (a ++ c).length + 2 → env.heap k = true) :
    ∃ b, (if s.overwrite && s.rawbuf.buf.isSome then
        (strbufDeletec env.heap s.rawbuf s.rawpos).map fun (_, b) => { s with rawbuf := b }
        else some s) = some { s with rawbuf := b } ∧
      Holds b (a ++ if s.overwrite then c.drop 1 else c) := by
  by_cases how : s.overwrite = true
  · cases c with
    | nil =>
      have hdel := strbufDelete_outside (b := s.rawbuf) env.heap s.rawpos 1
        (by simp [h.pos, h.buf.len])
      refine ⟨s.rawbuf, ?_, by simpa using h.buf⟩
      simp [strbufDeletec, hdel]
    | cons y c =>
      obtain ⟨b, hb, hh⟩ := strbufDelete_grow env.heap a [y] c
        (by simpa using h.buf) (by simp) (hheap _ (by simp; omega))
      have hsome : s.rawbuf.buf.isSome = true := by
        rcases h.buf.buf with hb | ⟨-, hnil⟩
        · simp [hb]
        · simp at hnil
      refine ⟨b, ?_, by simpa [how] using hh⟩
      simp only [List.length_singleton, Nat.cast_one] at hb
      simp [how, hsome, strbufDeletec, h.pos, hb]
  · exact ⟨s.rawbuf, if_neg (by simp [how]), by simpa [how] using h.buf⟩

/-- An ordinary character is inserted at the cursor, over the one under it when overwriting. -/
theorem rawChar_line (h : Line s a c) (hx : Plain x)
    (hfuel : (a ++ c).length + 1 ≤ env.fuel)
    (hheap : ∀ k, k ≤ (a ++ c).length + 2 → env.heap k = true) :
    ∃ t, rawChar env x s = some t ∧
      Line t (a ++ [x]) (if s.overwrite then c.drop 1 else c) ∧ Same s t := by
  obtain ⟨b, hb, hh⟩ := rawChar_overwrite h hheap
  generalize hc' : (if s.overwrite = true then c.drop 1 else c) = c' at hh ⊢
  have hle : c'.length ≤ c.length := by
    rw [← hc']
    split <;> simp
  have hmem : ∀ y, y ∈ c' → y ∈ c := by
    intro y hy
    rw [← hc'] at hy
    split at hy
    · exact List.mem_of_mem_drop hy
    · exact hy
  have hstr : charStr x = [x] := by simp [charStr, hx.2.2.2]
  obtain ⟨b', hb', hh', -⟩ := strbufInsert_grow env.heap a [x] c'
    hh (hheap _ (by simp; omega))
  have hl : Line { s with rawbuf := b', rawpos := s.rawpos } a (x :: c') :=
    ⟨h.pos, by simpa using hh', by
      intro y hy
      simp only [List.mem_append, List.mem_cons] at hy
      rcases hy with hy | rfl | hy
      · exact h.plain y (by simp [hy])
      · exact hx
      · exact h.plain y (by simp [hmem y hy])⟩
  have hf : (a ++ x :: c').length ≤ env.fuel := by
    simp at hfuel ⊢
    omega
  obtain ⟨t₁, h₁, hl₁, hs₁⟩ := rawCursor_toEnd hl hf
  obtain ⟨t₂, h₂, hl₂, hs₂⟩ := rawCursor_line env (s.rawpos + 1) .set
    (a ++ [x]) (c') hl₁ (by simp) (by simp [newpos, h.pos]) (by simpa using hf)
  refine ⟨t₂, ?_, hl₂, (Same.setBuf s b').trans (hs₁.trans hs₂)⟩
  have hins : strbufInsertc env.heap b s.rawpos x = some (1, b') := by
    rw [strbufInsertc, hstr, h.pos]
    simpa using hb'
  simp only [rawChar, hb, Option.bind_some, hins, h₁, h₂, Option.map_some]

theorem getc_cons {l : List UInt8} (h : s.input = x :: l) :
    getc s = some (x, { s with input := l }) := by
  rw [getc, h]

theorem rawTurn_cons {l : List UInt8} (h : s.input = x :: l) :
    rawTurn env s = rawSwitch env x { s with input := l } := by
  rw [rawTurn, getc_cons h, Option.bind_some]

theorem rawTurn_csi {y : UInt8} {l : List UInt8} (h : s.input = chEsc :: chEsc2 :: y :: l) :
    rawTurn env s = csiSwitch env y { s with input := l } := by
  rw [rawTurn_cons h]
  rfl

theorem rawTurn_pad {y z : UInt8} {l : List UInt8}
    (h : s.input = chEsc :: chEsc2 :: y :: z :: l) (act : Raw → Option Raw)
    (hy : ∀ t, csiSwitch env y t = padded t act) :
    rawTurn env s = if z = ctrlPad then act { s with input := l }
      else some (beep { s with input := l }) := by
  rw [rawTurn_csi h, hy]
  rfl

theorem csiSwitch_insert (s : Raw) : csiSwitch env keyInsert s =
    padded s fun s => some { s with overwrite := !s.overwrite } := rfl

theorem csiSwitch_home (s : Raw) : csiSwitch env keyHome s =
    padded s fun s => (rawCursor env 0 .set s).map Prod.snd := rfl

theorem csiSwitch_end (s : Raw) : csiSwitch env keyEnd s =
    padded s fun s => (rawCursor env 0 .fromEnd s).map Prod.snd := rfl

/-- A byte that is no control code reaches the `default` branch. -/
theorem rawSwitch_char (env : Env) (s : Raw) (h : x ∉ controls) :
    rawSwitch env x s = rawChar env x s ∧ Plain x := by
  simp only [controls, List.mem_cons, List.not_mem_nil, or_false, not_or] at h
  obtain ⟨h0, h1, h2, h3, h4, h5, h6, h7, h8, h9, h10, h11, h12, h13, h14, h15, h16, h17, h18⟩ := h
  refine ⟨?_, h3, h2, h1, h0⟩
  simp only [rawSwitch, h1, h2, h3, h4, h5, h6, h7, h8, h9, h10, h11, h12, h13, h14, h15, h16, h17,
    h18, or_self, if_false]

/-- The globals of `raw_read` show the editor's line, cursor and mode. -/
structure Shows (s : Raw) (e : Editor) : Prop where
  overwrite : s.overwrite = e.overwrite
  line : Line s (e.text.take e.cursor) (e.text.drop e.cursor)

theorem Line.input (h : Line s a c) (l : List UInt8) : Line { s with input := l } a c :=
  ⟨h.pos, h.buf, h.plain⟩

theorem Line.shows {e : Editor} {a' c' : List UInt8} (h : Line s a' c')
    (hcur : e.cursor = a'.length) (htext : e.text = a' ++ c') (how : s.overwrite = e.overwrite) :
    Shows s e := by
  refine ⟨how, ?_⟩
  rw [hcur, htext, List.take_left, List.drop_left]
  exact h

theorem Shows.beep {e : Editor} (h : Shows s e) : Shows (beep s) e :=
  ⟨h.overwrite, h.line.beep⟩

/-- The state a key leaves: the editor's next state on the screen, the key's bytes read. -/
structure Pressed (s t : Raw) (e : Editor) (rest : List UInt8) : Prop where
  shows : Shows t e
  input : t.input = rest
  done : t.done = s.done
  prevs : t.prevs = s.prevs

theorem Same.pressed {e : Editor} {rest : List UInt8} (h : Same { s with input := rest } t)
    (hs : Shows t e) : Pressed s t e rest :=
  ⟨hs, h.input, h.done, h.prevs⟩

section Press

variable {e : Editor} {rest : List UInt8} (h : Shows s e) (hfuel : e.text.length + 1 ≤ env.fuel)
  (hheap : ∀ j, j ≤ e.text.length + 2 → env.heap j = true)

include hfuel

theorem fuel_line : (e.text.take e.cursor ++ e.text.drop e.cursor).length ≤ env.fuel := by
  rw [List.take_append_drop]
  omega

include h

theorem press_begin :
    ∃ t, (rawCursor env 0 .set { s with input := rest }).map Prod.snd = some t ∧
      Pressed s t (e.moveTo 0) rest := by
  obtain ⟨t, ht, hl, hs⟩ := rawCursor_begin (h.line.input rest) (fuel_line hfuel)
  refine ⟨t, ht,
    hs.pressed (hl.shows (by simp [Editor.moveTo]) ?_ (hs.overwrite.trans h.overwrite))⟩
  simp [Editor.moveTo]

theorem press_toEnd :
    ∃ t, (rawCursor env 0 .fromEnd { s with input := rest }).map Prod.snd = some t ∧
      Pressed s t (e.moveTo e.text.length) rest := by
  obtain ⟨t, ht, hl, hs⟩ := rawCursor_toEnd (h.line.input rest) (fuel_line hfuel)
  refine ⟨t, by rw [ht, Option.map_some],
    hs.pressed (hl.shows ?_ ?_ (hs.overwrite.trans h.overwrite))⟩
  · simp [Editor.moveTo]
  · simp [Editor.moveTo]

theorem press_left :
    ∃ t, rawArrow env .left { s with input := rest } = some t ∧
      Pressed s t (e.moveTo (e.cursor - 1)) rest := by
  have hin := e.inside
  obtain ⟨t, a', c', ht, hl, hs, heq, hlen⟩ :=
    rawArrow_left (h.line.input rest) (fuel_line hfuel)
  rw [List.take_append_drop] at heq
  rw [List.length_take, Nat.min_eq_left hin] at hlen
  refine ⟨t, ht, hs.pressed (hl.shows ?_ heq.symm (hs.overwrite.trans h.overwrite))⟩
  simp [Editor.moveTo]
  omega

theorem press_right (rest : List UInt8) :
    ∃ t, rawArrow env .right { s with input := rest } = some t ∧
      Pressed s t (e.moveTo (e.cursor + 1)) rest := by
  have hin := e.inside
  obtain ⟨t, a', c', ht, hl, hs, heq, hlen⟩ :=
    rawArrow_right (h.line.input rest) (fuel_line hfuel)
  rw [List.take_append_drop] at heq hlen
  rw [List.length_take, Nat.min_eq_left hin] at hlen
  exact ⟨t, ht, hs.pressed (hl.shows hlen.symm heq.symm (hs.overwrite.trans h.overwrite))⟩

include hheap

theorem press_backspace (rest : List UInt8) :
    ∃ t, rawBackspace env { s with input := rest } = some t ∧ Pressed s t e.deleteBefore rest := by
  have hin := e.inside
  by_cases h0 : e.cursor = 0
  · have hl : Line { s with input := rest } [] e.text := by simpa [h0] using h.line.input rest
    refine ⟨_, rawBackspace_begin hl, (same_beep _).pressed ?_⟩
    exact hl.beep.shows (by simp [Editor.deleteBefore, h0]) (by simp [Editor.deleteBefore, h0])
      h.overwrite
  · obtain ⟨k, hk⟩ : ∃ k, e.cursor = k + 1 := ⟨e.cursor - 1, by omega⟩
    have hlt : k < e.text.length := by omega
    have htake : e.text.take e.cursor = e.text.take k ++ [e.text[k]] := by
      rw [hk, List.take_concat_get' e.text k hlt]
    have hlen : (e.text.take k ++ e.text[k] :: e.text.drop e.cursor).length = e.text.length := by
      simp
      omega
    have hl : Line { s with input := rest } (e.text.take k ++ [e.text[k]])
        (e.text.drop e.cursor) := by
      rw [← htake]
      exact h.line.input rest
    obtain ⟨t, ht, hl', hs⟩ := rawBackspace_line env hl (by omega)
      (fun j hj => hheap j (by omega))
    refine ⟨t, ht, hs.pressed (hl'.shows ?_ ?_ (hs.overwrite.trans h.overwrite))⟩
    · simp [Editor.deleteBefore, hk]
      omega
    · simp [Editor.deleteBefore, hk]

theorem press_char {x : UInt8} (hx : Plain x) :
    ∃ t, rawChar env x { s with input := rest } = some t ∧ Pressed s t (e.typed x) rest := by
  have hin := e.inside
  have hlen : (e.text.take e.cursor ++ e.text.drop e.cursor).length = e.text.length := by
    rw [List.take_append_drop]
  obtain ⟨t, ht, hl, hs⟩ := rawChar_line (h.line.input rest) hx (by omega)
    (fun j hj => hheap j (by omega))
  refine ⟨t, ht, hs.pressed (hl.shows ?_ ?_ (hs.overwrite.trans h.overwrite))⟩
  · simp [Editor.typed]
    omega
  · by_cases how : e.overwrite = true
    · simp [Editor.typed, h.overwrite, how]
    · simp [Editor.typed, h.overwrite, how]

theorem press_toBegin :
    ∃ t, whileM (fun s : Raw => decide (s.rawpos ≠ 0)) (rawBackspace env) env.fuel
        { s with input := rest } = some t ∧ Pressed s t e.deleteToBegin rest := by
  have hin := e.inside
  have hcond : ∀ (t : Raw) (m : List UInt8), Line t ([] ++ m) (e.text.drop e.cursor) →
      decide (t.rawpos ≠ 0) = decide (m ≠ []) := by
    intro t m hl
    simp [hl.pos]
  obtain ⟨t, ht, hl, hs⟩ := backspaces_line env (n := env.fuel) hcond
    (e.text.take e.cursor) (by simp; omega) (h.line.input rest) (by simp; omega)
    (fun j hj => hheap j (by simp at hj; omega))
  exact ⟨t, ht, hs.pressed (hl.shows rfl rfl (hs.overwrite.trans h.overwrite))⟩

theorem press_kill :
    ∃ t, ((rawCursor env 0 .fromEnd { s with input := rest }).bind fun (_, u) =>
        whileM (fun u : Raw => decide (u.rawpos > s.rawpos)) (rawBackspace env) env.fuel u) =
      some t ∧ Pressed s t e.deleteToEnd rest := by
  have hin := e.inside
  have hlen : (e.text.take e.cursor ++ e.text.drop e.cursor).length = e.text.length := by
    rw [List.take_append_drop]
  obtain ⟨u, hu, hl, hs⟩ := rawCursor_toEnd (h.line.input rest) (fuel_line hfuel)
  have hcond : ∀ (t : Raw) (m : List UInt8), Line t (e.text.take e.cursor ++ m) [] →
      decide (t.rawpos > s.rawpos) = decide (m ≠ []) := by
    intro t m hl
    rw [hl.pos, h.line.pos, List.length_append]
    simp [List.length_pos_iff]
  obtain ⟨t, ht, hl', hs'⟩ := backspaces_line env (n := env.fuel) hcond
    (e.text.drop e.cursor) (by simp; omega) hl (by simp; omega)
    (fun j hj => hheap j (by simp at hj; omega))
  refine ⟨t, ?_, (hs.trans hs').pressed
    (hl'.shows ?_ ?_ ((hs.trans hs').overwrite.trans h.overwrite))⟩
  · rw [hu, Option.bind_some]
    exact ht
  · simp [Editor.deleteToEnd]
    omega
  · simp [Editor.deleteToEnd]

theorem press_under :
    ∃ t, (if s.rawpos < s.rawbuf.len then
        (rawArrow env .right { s with input := rest }).bind (rawBackspace env)
        else some { s with input := rest }) = some t ∧ Pressed s t e.deleteUnder rest := by
  have hin := e.inside
  have hpos : s.rawpos = e.cursor := by rw [h.line.pos, List.length_take, Nat.min_eq_left hin]
  have hlen : s.rawbuf.len = e.text.length := by rw [h.line.buf.len, List.take_append_drop]
  by_cases hlt : e.cursor < e.text.length
  · rw [if_pos (by omega)]
    obtain ⟨u, hu, hsh, hi, hd, hp⟩ := press_right h hfuel rest
    have hcur : (e.moveTo (e.cursor + 1)).cursor = e.cursor + 1 := Nat.min_eq_left hlt
    obtain ⟨t, ht, hsh', hi', hd', hp'⟩ := press_backspace hsh hfuel hheap rest
    have hself : { u with input := rest } = u := by rw [← hi]
    rw [hself] at ht
    refine ⟨t, by rw [hu, Option.bind_some, ht], ?_, hi', hd'.trans hd, hp'.trans hp⟩
    have he : (e.moveTo (e.cursor + 1)).deleteBefore = e.deleteUnder := by
      simp only [Editor.deleteBefore, Editor.deleteUnder, hcur, Nat.add_sub_cancel]
      rfl
    rw [← he]
    exact hsh'
  · rw [if_neg (by omega)]
    have heq : e.cursor = e.text.length := by omega
    have he : e.deleteUnder = e := by
      obtain ⟨text, cursor, ow, hi⟩ := e
      obtain rfl : cursor = text.length := heq
      simp [Editor.deleteUnder]
    rw [he]
    exact ⟨_, rfl, ⟨h.overwrite, h.line.input rest⟩, rfl, rfl, rfl⟩

/-- One key is one turn of the loop. -/
theorem rawTurn_press (rest : List UInt8) (k : Key) (hin : s.input = k.bytes ++ rest) :
    ∃ t, rawTurn env s = some t ∧ Pressed s t (e.press k) rest := by
  have hself : Pressed s { s with input := rest } e rest :=
    ⟨⟨h.overwrite, h.line.input rest⟩, rfl, rfl, rfl⟩
  have hbeep : Pressed s (beep { s with input := rest }) e rest :=
    ⟨hself.shows.beep, rfl, rfl, rfl⟩
  cases k with
  | char x hx =>
    obtain ⟨hsw, hp⟩ := rawSwitch_char env { s with input := rest } hx
    rw [rawTurn_cons hin]
    exact hsw ▸ press_char h hfuel hheap hp
  | bs =>
    rw [rawTurn_cons hin]
    exact press_backspace h hfuel hheap _
  | del =>
    rw [rawTurn_cons hin]
    exact press_backspace h hfuel hheap _
  | left =>
    rw [rawTurn_csi hin]
    exact press_left h hfuel
  | ctrlB =>
    rw [rawTurn_cons hin]
    exact press_left h hfuel
  | right =>
    rw [rawTurn_csi hin]
    exact press_right h hfuel _
  | ctrlF =>
    rw [rawTurn_cons hin]
    exact press_right h hfuel _
  | home =>
    rw [rawTurn_pad hin _ csiSwitch_home, if_pos rfl]
    exact press_begin h hfuel
  | ctrlA =>
    rw [rawTurn_cons hin]
    exact press_begin h hfuel
  | toEnd =>
    rw [rawTurn_pad hin _ csiSwitch_end, if_pos rfl]
    exact press_toEnd h hfuel
  | ctrlE =>
    rw [rawTurn_cons hin]
    exact press_toEnd h hfuel
  | ctrlU =>
    rw [rawTurn_cons hin]
    exact press_toBegin h hfuel hheap
  | ctrlW =>
    rw [rawTurn_cons hin]
    exact press_toBegin h hfuel hheap
  | ctrlK =>
    rw [rawTurn_cons hin]
    exact press_kill h hfuel hheap
  | ctrlD =>
    rw [rawTurn_cons hin]
    exact press_under h hfuel hheap
  | insert =>
    rw [rawTurn_pad hin _ csiSwitch_insert, if_pos rfl]
    refine ⟨_, rfl, ⟨?_, h.line.pos, h.line.buf, h.line.plain⟩, rfl, rfl, rfl⟩
    exact congrArg not h.overwrite
  | esc x hx =>
    refine ⟨_, ?_, hbeep⟩
    rw [rawTurn_cons hin]
    change (if x = chEsc2 then _ else if x = chZ then _ else _) = _
    rw [if_neg hx.1, if_neg hx.2]
    rfl
  | escZ x hx =>
    refine ⟨_, ?_, hbeep⟩
    rw [rawTurn_cons hin]
    change (if x = chZ then _ else _) = _
    rw [if_neg hx]
    rfl
  | csi x hx =>
    refine ⟨_, ?_, hbeep⟩
    simp only [csiCodes, List.mem_cons, List.not_mem_nil, or_false, not_or] at hx
    rw [rawTurn_csi hin]
    simp only [csiSwitch, hx, if_false]
    rfl
  | csiPad x y hx hy =>
    refine ⟨_, ?_, hbeep⟩
    simp only [List.mem_cons, List.not_mem_nil, or_false] at hx
    rcases hx with rfl | rfl | rfl
    · rw [rawTurn_pad hin _ csiSwitch_insert, if_neg hy]
      rfl
    · rw [rawTurn_pad hin _ csiSwitch_home, if_neg hy]
      rfl
    · rw [rawTurn_pad hin _ csiSwitch_end, if_neg hy]
      rfl

end Press

/-- A key makes the line at most one character longer. -/
theorem press_length (e : Editor) (k : Key) : (e.press k).text.length ≤ e.text.length + 1 := by
  have hin := e.inside
  cases k with
  | char x hx =>
    simp only [Editor.press, Editor.typed, List.length_append, List.length_take, List.length_cons,
      List.length_drop]
    split <;> omega
  | _ =>
    simp only [Editor.press, Editor.deleteBefore, Editor.deleteUnder, Editor.deleteToBegin,
      Editor.deleteToEnd, Editor.moveTo, Editor.toggle, List.length_append, List.length_take,
      List.length_drop]
    omega

/-- The turns of `raw_read` on a sequence of keys follow the editor, and its loop goes on from
where they end. -/
theorem rawTurns_press (env : Env) (ks : List Key) (rest : List UInt8) {e : Editor} (h : Shows s e)
    (hdone : s.done = false) (hin : s.input = ks.flatMap Key.bytes ++ rest)
    (hfuel : e.text.length + ks.length ≤ env.fuel)
    (hheap : ∀ j, j ≤ e.text.length + ks.length + 1 → env.heap j = true) :
    ∃ t, rawTurns env ks.length s = some t ∧
      (∀ k, whileM (fun s : Raw => !s.done) (rawTurn env) (ks.length + k) s =
        whileM (fun s : Raw => !s.done) (rawTurn env) k t) ∧
      Pressed s t (ks.foldl Editor.press e) rest := by
  induction ks generalizing s e with
  | nil => exact ⟨s, rfl, fun k => by simp, h, by simpa using hin, rfl, rfl⟩
  | cons k ks ih =>
    simp only [List.length_cons] at hfuel hheap
    have hlen := press_length e k
    obtain ⟨t, ht, hp⟩ := rawTurn_press h (by omega)
      (fun j hj => hheap j (by omega)) (ks.flatMap Key.bytes ++ rest) k (by simpa using hin)
    obtain ⟨u, hu, hloop, hp'⟩ := ih hp.shows (hp.done.trans hdone) hp.input (by omega)
      (fun j hj => hheap j (by omega))
    refine ⟨u, ?_, ?_, hp'.shows, hp'.input, hp'.done.trans hp.done, hp'.prevs.trans hp.prevs⟩
    · rw [List.length_cons, rawTurns, ht, Option.bind_some, hu]
    · intro j
      rw [List.length_cons, Nat.add_right_comm, whileM_turn (by simp [hdone]) ht, hloop]

theorem rawInit_shows (env : Env) (s : Raw) :
    ∃ t, rawInit env s = some t ∧ Shows t (Editor.empty s.overwrite) ∧ t.done = false ∧
      t.input = s.input ∧ t.prevs = fun _ => none := by
  obtain ⟨b, hb, hh, -⟩ := holds_init env.heap
  refine ⟨{ s with rawbuf := b, rawpos := 0, prevs := fun _ => none, ups := 0, done := false },
    ?_, ⟨rfl, rfl, hh, by simp [Editor.empty]⟩, rfl, rfl, rfl⟩
  rw [rawInit, hb, Option.map_some]

/-- After every key the buffer, the cursor and the mode are those of the editor, as long as the
heap has room for the line. -/
theorem rawRead_follows_editor (env : Env) (s : Raw) (ks : List Key) (rest : List UInt8)
    (hin : s.input = ks.flatMap Key.bytes ++ rest) (hfuel : ks.length ≤ env.fuel)
    (hheap : ∀ j, j ≤ ks.length + 1 → env.heap j = true) (n : Nat) (hn : n ≤ ks.length) :
    ∃ t, (rawInit env s).bind (rawTurns env n) = some t ∧
      t.input = (ks.drop n).flatMap Key.bytes ++ rest ∧ t.done = false ∧
      0 ≤ t.rawpos ∧ t.rawpos ≤ t.rawbuf.len ∧
      (let e := (ks.take n).foldl Editor.press (Editor.empty s.overwrite)
       (t.rawbuf.buf = some (cells e.text) ∨ t.rawbuf.buf = none ∧ t.rawbuf.len = 0) ∧
        t.rawbuf.len = e.text.length ∧ t.rawpos = e.cursor ∧ t.overwrite = e.overwrite) := by
  obtain ⟨s₀, h₀, hs₀, hd₀, hi₀, -⟩ := rawInit_shows env s
  have hlen : (ks.take n).length = n := List.length_take_of_le hn
  obtain ⟨t, ht, -, hp⟩ := rawTurns_press env (ks.take n)
    ((ks.drop n).flatMap Key.bytes ++ rest) hs₀ hd₀
    (by rw [hi₀, hin, ← List.append_assoc, ← List.flatMap_append, List.take_append_drop])
    (by rw [hlen]; simp [Editor.empty]; omega)
    (fun j hj => hheap j (by rw [hlen] at hj; simp [Editor.empty] at hj; omega))
  rw [hlen] at ht
  have hinside := ((ks.take n).foldl Editor.press (Editor.empty s.overwrite)).inside
  have hpos := hp.shows.line.pos
  have hbuf := hp.shows.line.buf
  rw [List.take_append_drop] at hbuf
  rw [List.length_take, Nat.min_eq_left hinside] at hpos
  refine ⟨t, by rw [h₀, Option.bind_some, ht], hp.input, hp.done.trans hd₀, by omega, ?_, ?_,
    hbuf.len, hpos, hp.shows.overwrite⟩
  · rw [hpos, hbuf.len]
    exact_mod_cast hinside
  · rcases hbuf.buf with hb | ⟨hb, htext⟩
    · exact Or.inl hb
    · exact Or.inr ⟨hb, by rw [hbuf.len, htext]; rfl⟩

/-- A machine just started, with nothing in its history and the given keyboard input. -/
def startRaw (input : List UInt8) : Raw where
  rawpos := 0
  overwrite := false
  rawbuf := { len := 0, max := strbufGrow, buf := none }
  ups := 0
  prevs := fun _ => none
  done := false
  input := input
  out := []

theorem histsz_pos : 0 < histsz := by decide

def startEnv (fuel : Nat) : Env where
  heap := fun _ => true
  hist := { ent := fun _ => { hNum := 0, hLine := none }, histn := ⟨0, histsz_pos⟩,
            hist0 := ⟨0, histsz_pos⟩, histnum := 0 }
  fuel := fuel

/-- Typing `ab`, going left and typing `c` over the `b`. -/
theorem rawRead_follows_editor_overwrite :
    ∃ t, (rawInit (startEnv 5) (startRaw [97, 98, 2, 27, 91, 50, 126, 99])).bind
        (rawTurns (startEnv 5) 5) = some t ∧
      t.rawbuf.buf = some (cells [97, 99]) ∧ t.rawpos = 2 ∧ t.overwrite = true := by
  obtain ⟨t, ht, -, -, -, -, hbuf, hlen, hpos, how⟩ :=
    rawRead_follows_editor (startEnv 5) (startRaw [97, 98, 2, 27, 91, 50, 126, 99])
      [.char 97 (by decide), .char 98 (by decide), .ctrlB, .insert, .char 99 (by decide)] []
      rfl (by decide) (fun _ _ => rfl) 5 (by decide)
  refine ⟨t, ht, ?_, hpos, how⟩
  rcases hbuf with hbuf | ⟨-, h0⟩
  · exact hbuf
  · exact absurd (h0.symm.trans hlen) (by decide)

theorem cleanupFrom_none (h : s.prevs 0 = none) : cleanupFrom s (n + 1) 0 = some () := by
  simp [cleanupFrom, prevsAt, h]

/-- A line ended by return is returned as the editor leaves it, NUL-terminated. -/
theorem rawRead_returns (env : Env) (s : Raw) (ks : List Key) (rest : List UInt8)
    (hin : s.input = ks.flatMap Key.bytes ++ chCr :: rest) (hfuel : ks.length + 1 ≤ env.fuel)
    (hheap : ∀ j, j ≤ ks.length + 1 → env.heap j = true) :
    ∃ t, rawRead env s = some (some (cells
        (ks.foldl Editor.press (Editor.empty s.overwrite)).text), t) ∧ t.input = rest := by
  obtain ⟨s₀, h₀, hs₀, hd₀, hi₀, hp₀⟩ := rawInit_shows env s
  obtain ⟨t, -, hloop, hp⟩ := rawTurns_press env ks (chCr :: rest) hs₀ hd₀
    (by rw [hi₀, hin]) (by simp [Editor.empty]; omega)
    (fun j hj => hheap j (by simp [Editor.empty] at hj; omega))
  obtain ⟨k, hk⟩ : ∃ k, env.fuel = ks.length + (k + 1) := ⟨env.fuel - ks.length - 1, by omega⟩
  have hturn : rawTurn env t = some { t with input := rest, done := true } := rawTurn_cons hp.input
  have hend : whileM (fun s : Raw => !s.done) (rawTurn env) env.fuel s₀ =
      some { t with input := rest, done := true } := by
    rw [hk, hloop, whileM_turn (by simp [hp.done, hd₀]) hturn, whileM_stop rfl]
  obtain ⟨u, hu, hub, hui, hup⟩ : ∃ u, rawPutc chNl { t with input := rest, done := true } = u ∧
      u.rawbuf = t.rawbuf ∧ u.input = rest ∧ u.prevs 0 = none :=
    ⟨_, rfl, rfl, rfl, congrFun (hp.prevs.trans hp₀) 0⟩
  have hbuf := hp.shows.line.buf.buf
  rw [List.take_append_drop, ← hub] at hbuf
  rw [rawRead, h₀, Option.bind_some, hend, Option.bind_some, hu]
  simp only [cleanupFrom_none hup, Option.map_some]
  rcases hbuf with hbuf | ⟨hbuf, htext⟩
  · rw [hbuf]
    exact ⟨u, rfl, hui⟩
  · have hone : (malloc env.heap 1).isSome = true := by
      rw [malloc, if_pos ⟨by decide, hheap 1 (by omega)⟩]
      rfl
    obtain ⟨b, hb⟩ := Option.isSome_iff_exists.mp hone
    rw [hbuf, htext, hb]
    exact ⟨_, rfl, hui⟩

end Console
