import CobaltRom.I18n.Parse

/-! Octal escapes: the character behind one is saved, whatever it is. -/
namespace I18n
open Console (Heap)
open Console.Ctype (Before)

def OctalDigits (ds : List UInt8) : Prop :=
  1 ≤ ds.length ∧ ds.length ≤ 3 ∧ ∀ c ∈ ds, isoctal c = true

/-- The number of digits behind one that is `n`. -/
def octalFrom (n : Nat) (ds : List UInt8) : Nat := ds.foldl (fun n c => n * 8 + (c.toNat - 0x30)) n

def octalValue (ds : List UInt8) : Nat := octalFrom 0 ds

/-- The locals that read an escape. -/
def Parser.number (p : Parser) (tmpVal : UInt32) (chars : Nat) : Parser :=
  { p with tmpVal := tmpVal, chars := chars }

/-- In the string, with the locals as the digits leave them. -/
def Parser.digits (p : Parser) (ds : List UInt8) : Parser :=
  p.number (.ofNat (octalValue ds)) ds.length

/-- The value modulo 256 is one more character of the string. -/
def Parser.escaped (p : Parser) (ds : List UInt8) : Parser :=
  saveVal (.ofNat (octalValue ds)) (p.digits ds)

/-- The escape is one character, and what comes behind it is read as in any other place. -/
def EscapeDenotes (before : Before) (heap : Nat → Heap) (p : Parser) (ds : List UInt8) (c : UInt8) :
    Prop :=
  ∀ rest, feed before heap ([0x5c] ++ ds ++ c :: rest) p =
  feed before heap (c :: rest) (p.escaped ds)

variable {before : Before} {heap : Nat → Heap} {p q : Parser} {ds rest : List UInt8}
  {c : UInt8} {n : Nat}

/-! ### The digits -/

theorem octal_digit (hc : isoctal c = true) (n : Nat) :
    (UInt32.ofNat n <<< 3) + (c.toUInt32 - 0x30) = UInt32.ofNat (n * 8 + (c.toNat - 0x30)) := by
  have hlow : ∀ c, isoctal c = true → 0x30 ≤ c.toNat := by decide +kernel
  have hle : (0x30 : UInt32) ≤ c.toUInt32 := by
    rw [UInt32.le_iff_toNat_le, UInt8.toNat_toUInt32]
    exact hlow c hc
  have hdigit : c.toUInt32 - 0x30 = UInt32.ofNat (c.toNat - 0x30) := by
    refine UInt32.toNat_inj.mp ?_
    rw [UInt32.toNat_sub_of_le _ _ hle, UInt32.toNat_ofNat', UInt8.toNat_toUInt32, Nat.mod_eq_of_lt]
    · rfl
    · have := c.toNat_lt
      omega
  have hshift : UInt32.ofNat n <<< 3 = UInt32.ofNat (n * 8) := by
    have height : 2 ^ (3 % 2 ^ 32 % 32) = 8 := rfl
    refine UInt32.toNat_inj.mp ?_
    simp only [UInt32.toNat_shiftLeft, UInt32.toNat_ofNat', UInt32.toNat_ofNat,
      Nat.shiftLeft_eq, height]
    omega
  rw [hdigit, hshift, ← UInt32.ofNat_add]

/-- From the second digit on; there are at most three. -/
theorem feed_octal (hds : ∀ c ∈ ds, isoctal c = true) : ∀ n k : Nat, k + ds.length ≤ 3 →
    feed before heap ds ((p.number (.ofNat n) k).goto .escapedOctal) =
      on ((p.number (.ofNat (octalFrom n ds)) (k + ds.length)).goto .escapedOctal) := by
  induction ds with
  | nil => exact fun _ _ _ => rfl
  | cons c ds ih =>
    intro n k hchars
    have hc := hds c List.mem_cons_self
    rw [List.length_cons] at hchars ⊢
    have hstep : step before heap ((p.number (.ofNat n) k).goto .escapedOctal) c =
        on ((p.number (.ofNat (n * 8 + (c.toNat - 0x30))) (k + 1)).goto .escapedOctal) := by
      have hmore : k < 3 ∧ isoctal c = true := ⟨by omega, hc⟩
      rw [← octal_digit hc]
      exact if_pos hmore
    rw [feed_cons hstep, ih (fun d hd => hds d (List.mem_cons_of_mem c hd)) _ _ (by omega),
      Nat.add_assoc, Nat.add_comm 1]
    rfl

theorem feed_escape (hstate : p.state = .readString) (hds : OctalDigits ds) :
    feed before heap ([0x5c] ++ ds) p = on ((p.digits ds).goto .escapedOctal) := by
  obtain ⟨hpos, hle, hoctal⟩ := hds
  cases ds with
  | nil => exact absurd hpos (by decide)
  | cons c ds =>
    have hc := hoctal c List.mem_cons_self
    have hback : step before heap p 0x5c = on (p.goto .escape) := by
      rw [step, hstate]
      rfl
    have hfirst : step before heap (p.goto .escape) c =
        on ((p.number (.ofNat (c.toNat - 0x30)) 1).goto .escapedOctal) := by
      have hdigit := octal_digit hc 0
      rw [Nat.zero_mul, Nat.zero_add, show UInt32.ofNat 0 <<< 3 = 0 from rfl,
        UInt32.zero_add] at hdigit
      rw [← hdigit]
      exact if_pos hc
    rw [List.length_cons] at hle
    rw [List.cons_append, List.nil_append, feed_cons hback, feed_cons hfirst,
      feed_octal (fun d hd => hoctal d (List.mem_cons_of_mem c hd)) _ _ (by omega), Parser.digits,
      octalValue, octalFrom, octalFrom, List.foldl_cons, Nat.zero_mul, Nat.zero_add,
      List.length_cons,
      Nat.add_comm 1]

/-! ### The character behind -/

/-- It ends the escape, and is saved. -/
theorem step_behind (hstate : p.state = .readString) (hend : ds.length = 3 ∨ isoctal c = false) :
    step before heap ((p.digits ds).goto .escapedOctal) c = on (saveVal c (p.escaped ds)) := by
  have hno : ¬ (((p.digits ds).goto .escapedOctal).chars < 3 ∧ isoctal c = true) := by
    rintro ⟨hlt, hc⟩
    rcases hend with hthree | hoctal
    · exact absurd hlt (by rw [← hthree]; exact lt_irrefl _)
    · rw [hoctal] at hc
      cases hc
  have hbyte : ((p.digits ds).tmpVal &&& 0xff).toUInt8 = UInt8.ofNat (octalValue ds) := by
    have hval : (p.digits ds).tmpVal = UInt32.ofNat (octalValue ds) := rfl
    refine UInt8.toNat_inj.mp ?_
    rw [hval, UInt32.toNat_toUInt8, UInt32.toNat_and, UInt32.toNat_ofNat', UInt8.toNat_ofNat']
    refine (congrArg (· % 2 ^ 8) (Nat.and_two_pow_sub_one_eq_mod _ 8)).trans ?_
    omega
  have hsaved : (saveVal c (p.escaped ds)).state = .readString :=
    (saveVal_state _ _).trans ((saveVal_state _ _).trans hstate)
  have hnow : ((p.digits ds).goto .escapedOctal).state = .escapedOctal := rfl
  rw [step, hnow]
  dsimp only
  rw [if_neg hno]
  change on ((saveVal c (saveVal ((p.digits ds).tmpVal &&& 0xff).toUInt8
    ((p.digits ds).goto .escapedOctal))).goto .readString) = _
  rw [hbyte, saveVal_goto, saveVal_goto]
  exact congrArg on (goto_self hsaved)

theorem escaped_state (hstate : p.state = .readString) : (p.escaped ds).state = .readString :=
  (saveVal_state _ _).trans hstate

theorem feed_behind (hstate : p.state = .readString) (hds : OctalDigits ds)
    (hend : ds.length = 3 ∨ isoctal c = false) (rest : List UInt8) :
    feed before heap ([0x5c] ++ ds ++ c :: rest) p =
    feed before heap rest (saveVal c (p.escaped ds)) := by
  rw [feed_append (feed_escape hstate hds), feed_cons (step_behind hstate hend)]

/-- A parser that is still in the string has not seen what ends it or begins an escape. -/
theorem not_denotes (hstate : p.state = .readString) (hds : OctalDigits ds)
    (hc : c = 0x22 ∨ c = 0x5c ∨ c = 0x0a) : ¬ EscapeDenotes before heap p ds c := by
  intro h
  have hend : ds.length = 3 ∨ isoctal c = false := by
    refine Or.inr ?_
    rcases hc with rfl | rfl | rfl <;> decide
  have hnow := h []
  rw [feed_behind hstate hds hend, feed] at hnow
  have hesc : (p.escaped ds).state = .readString := escaped_state hstate
  have hother : ∀ q : Parser, q.state ≠ .readString → on (saveVal c (p.escaped ds)) ≠ on q := by
    intro q hq heq
    injection heq with heq
    injection heq with heq
    rw [← heq, saveVal_state, hesc] at hq
    exact hq rfl
  rcases hc with rfl | rfl | rfl
  · have hquote : step before heap (p.escaped ds) 0x22 = on ((p.escaped ds).goto .endString) := by
      rw [step, hesc]
      rfl
    rw [feed_cons hquote] at hnow
    exact hother ((p.escaped ds).goto .endString) State.noConfusion hnow
  · have hback : step before heap (p.escaped ds) 0x5c = on ((p.escaped ds).goto .escape) := by
      rw [step, hesc]
      rfl
    rw [feed_cons hback] at hnow
    exact hother ((p.escaped ds).goto .escape) State.noConfusion hnow
  · have hnewline : step before heap (p.escaped ds) 0x0a = failed (p.escaped ds) := by
      rw [step, hesc]
      rfl
    rw [feed, hnewline, failed] at hnow
    injection hnow with hnow
    cases hnow

/-- An octal escape is one character and ends where it should, except directly in front of a quote,
a backslash or a newline. -/
theorem escape_denotes_iff (before : Before) (heap : Nat → Heap) (p : Parser) (ds : List UInt8)
    (c : UInt8) (hstate : p.state = .readString) (hds : OctalDigits ds)
    (hend : ds.length = 3 ∨ isoctal c = false) :
    EscapeDenotes before heap p ds c ↔ c ≠ 0x22 ∧ c ≠ 0x5c ∧ c ≠ 0x0a := by
  constructor
  · intro h
    refine ⟨?_, ?_, ?_⟩
    · exact fun hc => not_denotes hstate hds (Or.inl hc) h
    · exact fun hc => not_denotes hstate hds (Or.inr (Or.inl hc)) h
    · exact fun hc => not_denotes hstate hds (Or.inr (Or.inr hc)) h
  · rintro ⟨hquote, hback, hnewline⟩ rest
    have hplain : step before heap (p.escaped ds) c = on (saveVal c (p.escaped ds)) := by
      rw [step, escaped_state hstate]
      dsimp only
      rw [if_neg hquote, if_neg hback, if_neg hnewline]
    rw [feed_behind hstate hds hend, feed_cons hplain]

/-- `\101B` in a string. -/
theorem escape_denotes_letter : EscapeDenotes (fun _ => 0) (fun _ _ => true)
    ((Parser.init (fun _ => 0) (fun _ => 0) 0 []).goto .readString) [0x31, 0x30, 0x31] 0x42 :=
  (escape_denotes_iff (fun _ => 0) (fun _ _ => true)
    ((Parser.init (fun _ => 0) (fun _ => 0) 0 []).goto .readString) [0x31, 0x30, 0x31] 0x42 rfl
    ⟨by decide, by decide, by decide +kernel⟩ (by decide)).mpr (by decide)

/-- `\101"` does not end a string. -/
theorem not_denotes_quote : ¬ EscapeDenotes (fun _ => 0) (fun _ _ => true)
    ((Parser.init (fun _ => 0) (fun _ => 0) 0 []).goto .readString) [0x31, 0x30, 0x31] 0x22 :=
  not_denotes rfl ⟨by decide, by decide, by decide +kernel⟩ (Or.inl rfl)

end I18n
