import CobaltRom.Flash.Routines

/-! How long the routines wait for a chip, and what they return if it never gets done. -/
namespace Flash
open Hoare

variable {σ : Type}

/-- What `rom[i]` reads, and the state after it. -/
def Machine.peek (bus : Bus σ) (i : Int) (m : Machine σ) : UInt8 × Machine σ :=
  ((bus.read (m.loc (m.romAddr i)) m.dev).1,
    { m with dev := (bus.read (m.loc (m.romAddr i)) m.dev).2 })

theorem run_romRead_bind {β : Type} (bus : Bus σ) (i : Int) (f : UInt8 → FlashM σ β)
    (m : Machine σ) : (romRead bus i >>= f).run m = (f (m.peek bus i).1).run (m.peek bus i).2 := rfl

/-! ### The turns of a wait -/

section Wait

variable (bus : Bus σ) (off : Int) (ready : UInt8 → Bool) (error : FlashM σ (Option Int))

/-- A turn in which the chip shows neither that it is done nor an error. -/
def quietTurn : FlashM σ Unit := do
  let s ← romRead bus off
  if ready s then failure
  else do
    let e ← error
    if e.isSome then failure else pure ()

/-- The state after so many quiet turns, if there are. -/
def quietTurns : Nat → Machine σ → Option (Machine σ)
  | 0, m => some m
  | n + 1, m => ((quietTurn bus off ready error).run m).bind fun x => quietTurns n x.2

/-- In some turn the chip shows that it is done, and before that no error. -/
def Reported (m : Machine σ) : Prop :=
  ∃ n m', quietTurns bus off ready error n m = some m' ∧ ready (m'.peek bus off).1 = true

/-- In some turn the chip shows that it is done, or an error. -/
def Answered (m : Machine σ) : Prop := ∃ n, quietTurns bus off ready error n m = none

/-- Looking for an error always ends, and an error is not 0. -/
def Looks (error : FlashM σ (Option Int)) : Prop :=
  ∀ m, ∃ e m', error.run m = some (e, m') ∧ e ≠ some 0

variable {bus off ready error}

/-- The loop is left. -/
theorem poll_stop {m : Machine σ} {r : Int} (h : ready (m.peek bus off).1 = true ∨ r ≠ 0)
    (counted : Bool) (fuel timeout : Nat) :
    (poll bus off ready error counted (fuel + 1) timeout r).run m =
      some (r, (m.peek bus off).2) := by
  unfold poll
  rw [run_romRead_bind, if_pos h]
  rfl

/-- The loop goes on. -/
theorem poll_turn {m m' : Machine σ} {e : Option Int} (hready : ¬ ready (m.peek bus off).1 = true)
    (herror : error.run (m.peek bus off).2 = some (e, m')) (counted : Bool) (fuel timeout : Nat) :
    (poll bus off ready error counted (fuel + 1) timeout 0).run m =
      (poll bus off ready error counted fuel (if counted then timeout + 1 else timeout)
        (if (if counted then timeout + 1 else timeout) = maxTimeout then -1 else e.getD 0)).run
          m' := by
  rw [poll, run_romRead_bind, if_neg fun h => h.elim hready fun h => h rfl]
  exact run_bind_some herror

theorem quietTurn_ready {m : Machine σ} (h : ready (m.peek bus off).1 = true) :
    (quietTurn bus off ready error).run m = none := by
  unfold quietTurn
  rw [run_romRead_bind, if_pos h]
  rfl

theorem quietTurn_run {m m' : Machine σ} {e : Option Int}
    (hready : ¬ ready (m.peek bus off).1 = true)
    (herror : error.run (m.peek bus off).2 = some (e, m')) :
    (quietTurn bus off ready error).run m = if e.isSome then none else some ((), m') := by
  unfold quietTurn
  rw [run_romRead_bind, if_neg hready, run_bind_some herror]
  cases e with
  | none => rfl
  | some c => rfl

/-- A result of 0 means that the chip has shown to be done. -/
theorem reported_of_poll (hlooks : Looks error) {counted : Bool} {fuel timeout : Nat}
    {m m' : Machine σ}
    (h : (poll bus off ready error counted fuel timeout 0).run m = some ((0 : Int), m')) :
    Reported bus off ready error m := by
  induction fuel generalizing timeout m with
  | zero => cases h
  | succ fuel ih =>
    by_cases hready : ready (m.peek bus off).1 = true
    · exact ⟨0, m, rfl, hready⟩
    · obtain ⟨e, m₁, herror, hcode⟩ := hlooks (m.peek bus off).2
      rw [poll_turn hready herror] at h
      generalize (if counted then timeout + 1 else timeout) = timeout' at h
      by_cases hr : (if timeout' = maxTimeout then -1 else e.getD 0) = 0
      · rw [hr] at h
        obtain ⟨n, m₂, hturns, hdone⟩ := ih h
        have hquiet : e = none := by
          cases e with
          | none => rfl
          | some c =>
            split at hr
            · cases hr
            · exact absurd (congrArg some hr) hcode
        refine ⟨n + 1, m₂, ?_, hdone⟩
        rw [quietTurns, quietTurn_run hready herror, hquiet]
        exact hturns
      · cases fuel with
        | zero => cases h
        | succ fuel =>
          rw [poll_stop (Or.inr hr)] at h
          exact absurd (congrArg Prod.fst (Option.some.inj h)) hr

/-- A wait that counts its turns ends. -/
theorem poll_counted (hlooks : Looks error) (left : Nat) {fuel timeout : Nat} (r : Int)
    (m : Machine σ) (htimeout : timeout + left = maxTimeout) (hleft : 0 < left)
    (hfuel : left < fuel) :
    ∃ r' m', (poll bus off ready error true fuel timeout r).run m = some (r', m') := by
  induction left generalizing fuel timeout r m with
  | zero => omega
  | succ left ih =>
    obtain ⟨fuel, rfl⟩ : ∃ k, fuel = k + 2 := ⟨fuel - 2, by omega⟩
    by_cases hstop : ready (m.peek bus off).1 = true ∨ r ≠ 0
    · exact ⟨_, _, poll_stop hstop _ _ _⟩
    · obtain ⟨hready, hr⟩ := not_or.mp hstop
      obtain ⟨e, m₁, herror, -⟩ := hlooks (m.peek bus off).2
      rw [not_not.mp hr, poll_turn hready herror]
      by_cases hlast : timeout + 1 = maxTimeout
      · rw [if_pos rfl, if_pos hlast]
        exact ⟨_, _, poll_stop (Or.inr (by decide)) _ _ _⟩
      · exact ih _ _ (by simp only [if_true]; omega) (by omega) (by omega)

/-- A wait that does not count ends only if the chip answers. -/
theorem poll_uncounted (hlooks : Looks error) (timeout : Nat) (htimeout : timeout ≠ maxTimeout)
    (m : Machine σ) :
    (∃ fuel r m', (poll bus off ready error false fuel timeout 0).run m = some (r, m')) ↔
      Answered bus off ready error m := by
  constructor
  · rintro ⟨fuel, r, m', h⟩
    induction fuel generalizing m with
    | zero => cases h
    | succ fuel ih =>
      by_cases hready : ready (m.peek bus off).1 = true
      · refine ⟨1, ?_⟩
        rw [quietTurns, quietTurn_ready hready]
        rfl
      · obtain ⟨e, m₁, herror, -⟩ := hlooks (m.peek bus off).2
        cases e with
        | some c =>
          refine ⟨1, ?_⟩
          rw [quietTurns, quietTurn_run hready herror]
          rfl
        | none =>
          rw [poll_turn hready herror, if_neg Bool.false_ne_true, if_neg htimeout] at h
          obtain ⟨n, hn⟩ := ih m₁ h
          refine ⟨n + 1, ?_⟩
          rw [quietTurns, quietTurn_run hready herror]
          exact hn
  · rintro ⟨n, hn⟩
    induction n generalizing m with
    | zero => cases hn
    | succ n ih =>
      by_cases hready : ready (m.peek bus off).1 = true
      · exact ⟨1, _, _, poll_stop (Or.inl hready) _ _ _⟩
      · obtain ⟨e, m₁, herror, hcode⟩ := hlooks (m.peek bus off).2
        have hturn := fun fuel => poll_turn hready herror false fuel timeout
        simp only [Bool.false_eq_true, if_false, if_neg htimeout] at hturn
        cases e with
        | some c =>
          refine ⟨2, c, (m₁.peek bus off).2, ?_⟩
          rw [hturn]
          exact poll_stop (Or.inr fun hc => hcode (congrArg some hc)) _ _ _
        | none =>
          rw [quietTurns, quietTurn_run hready herror] at hn
          obtain ⟨fuel, r, m', h⟩ := ih m₁ hn
          exact ⟨fuel + 1, r, m', (hturn fuel).trans h⟩

end Wait

variable {bus : Bus σ} {m m' : Machine σ} {off : Int} {ready : UInt8 → Bool} {fuel : Nat}

theorem amdError_looks {code : Int} (hcode : code ≠ 0) : Looks (amdError bus off ready code) := by
  intro m
  unfold amdError
  rw [run_romRead_bind]
  by_cases hbit : (m.peek bus off).1 &&& 0x20 ≠ 0
  · rw [if_pos hbit, run_romRead_bind]
    refine ⟨_, _, rfl, ?_⟩
    split
    · exact (Option.some_ne_none _).symm
    · exact fun h => hcode (Option.some.inj h)
  · rw [if_neg hbit]
    exact ⟨none, _, rfl, (Option.some_ne_none _).symm⟩

theorem intelError_looks {bit : UInt8} {code : Int} (hcode : code ≠ 0) :
    Looks (intelError bus bit code) := by
  intro m
  unfold intelError
  rw [run_romRead_bind]
  by_cases hbit : (m.peek bus 0).1 &&& bit ≠ 0
  · rw [if_pos hbit, run_romWrite_bind]
    exact ⟨some code, _, rfl, fun h => hcode (Option.some.inj h)⟩
  · rw [if_neg hbit]
    exact ⟨none, _, rfl, (Option.some_ne_none _).symm⟩

theorem succ_code (i : Nat) : (i + 1 : Int) ≠ 0 := by omega

/-- Enough turns for a wait that counts them. -/
abbrev enough : Nat := maxTimeout + 1

theorem poll_enough {error : FlashM σ (Option Int)} (hlooks : Looks error) (r : Int)
    (m : Machine σ) : ∃ r' m', (poll bus off ready error true enough 0 r).run m = some (r', m') :=
  poll_counted hlooks maxTimeout r m (Nat.zero_add _) (by decide) (Nat.lt_succ_self _)

/-! ### Programming a page -/

section Bytes

variable {data : Nat → UInt8} {n i : Nat} {r : Int}

/-- The writes that have a chip program a byte. -/
def amdProgram (i : Int) (v : UInt8) : List (Int × UInt8) :=
  [(0x555, 0xaa), (0x2aa, 0x55), (0x555, 0xa0), (i, v)]

def intelProgram (i : Int) (v : UInt8) : List (Int × UInt8) := [(i, 0x40), (i, v)]

/-- The wait after a byte. -/
def amdWait (bus : Bus σ) (fuel : Nat) (data : Nat → UInt8) (i : Nat) (r : Int) : FlashM σ Int :=
  poll bus i (dataBit (data i)) (amdError bus i (dataBit (data i)) (i + 1)) true fuel 0 r

def intelWait (bus : Bus σ) (fuel : Nat) (i : Nat) (r : Int) : FlashM σ Int :=
  poll bus 0 highBit (intelError bus 0x10 (i + 1)) true fuel 0 r

theorem amdWriteBytes_error (hr : r ≠ 0) (n i : Nat) (m : Machine σ) :
    (amdWriteBytes bus fuel data n i r).run m = some (r, m) := by
  cases n with
  | zero => rfl
  | succ n =>
    unfold amdWriteBytes
    rw [if_pos hr]
    rfl

theorem amdWriteBytes_succ (n i : Nat) (m : Machine σ) :
    (amdWriteBytes bus fuel data (n + 1) i 0).run m =
      ((amdWait bus fuel data i 0).run (m.pokes bus (amdProgram i (data i)))).bind fun x =>
        (amdWriteBytes bus fuel data n (i + 1) x.1).run x.2 := by
  rw [amdWriteBytes, if_neg (not_not.mpr rfl), run_romWrite_bind, run_romWrite_bind,
    run_romWrite_bind, run_romWrite_bind, StateT.run_bind]
  rfl

theorem intelWriteBytes_succ (n i : Nat) (r : Int) (m : Machine σ) :
    (intelWriteBytes bus fuel data (n + 1) i r).run m =
      ((intelWait bus fuel i r).run (m.pokes bus (intelProgram i (data i)))).bind fun x =>
        (intelWriteBytes bus fuel data n (i + 1) x.1).run x.2 := by
  rw [intelWriteBytes, run_romWrite_bind, run_romWrite_bind, StateT.run_bind]
  rfl

theorem intelWait_error (hr : r ≠ 0) {r' : Int}
    (h : (intelWait bus fuel i r).run m = some (r', m')) : r' = r := by
  cases fuel with
  | zero => cases h
  | succ fuel =>
    rw [intelWait, poll_stop (Or.inr hr)] at h
    exact (congrArg Prod.fst (Option.some.inj h)).symm

theorem intelWriteBytes_error (hr : r ≠ 0) {r' : Int}
    (h : (intelWriteBytes bus fuel data n i r).run m = some (r', m')) : r' = r := by
  induction n generalizing i m with
  | zero => exact (congrArg Prod.fst (Option.some.inj h)).symm
  | succ n ih =>
    rw [intelWriteBytes_succ] at h
    obtain ⟨⟨r₁, m₁⟩, hwait, hrest⟩ := Option.bind_eq_some_iff.mp h
    cases intelWait_error hr hwait
    exact ih hrest

theorem amdWriteBytes_enough (n i : Nat) (r : Int) (m : Machine σ) :
    ∃ r' m', (amdWriteBytes bus enough data n i r).run m = some (r', m') := by
  induction n generalizing i r m with
  | zero => exact ⟨r, m, rfl⟩
  | succ n ih =>
    by_cases hr : r = 0
    · obtain ⟨r₁, m₁, hwait⟩ := poll_enough (amdError_looks (succ_code i)) 0
        (m.pokes bus (amdProgram i (data i)))
      obtain ⟨r', m', hrest⟩ := ih (i + 1) r₁ m₁
      refine ⟨r', m', ?_⟩
      rw [hr, amdWriteBytes_succ, amdWait, hwait]
      exact hrest
    · exact ⟨r, m, amdWriteBytes_error hr _ _ m⟩

theorem intelWriteBytes_enough (n i : Nat) (r : Int) (m : Machine σ) :
    ∃ r' m', (intelWriteBytes bus enough data n i r).run m = some (r', m') := by
  induction n generalizing i r m with
  | zero => exact ⟨r, m, rfl⟩
  | succ n ih =>
    obtain ⟨r₁, m₁, hwait⟩ := poll_enough (intelError_looks (succ_code i)) r
      (m.pokes bus (intelProgram i (data i)))
    obtain ⟨r', m', hrest⟩ := ih (i + 1) r₁ m₁
    refine ⟨r', m', ?_⟩
    rw [intelWriteBytes_succ, intelWait, hwait]
    exact hrest

/-- After byte `j` has been programmed the chip has shown to be done. -/
def AmdReported (bus : Bus σ) (fuel : Nat) (data : Nat → UInt8) (i j : Nat) (m : Machine σ) :
    Prop :=
  ∃ m', (amdWriteBytes bus fuel data j i 0).run m = some ((0 : Int), m') ∧
    Reported bus (i + j : Nat) (dataBit (data (i + j)))
      (amdError bus (i + j : Nat) (dataBit (data (i + j))) ((i + j : Nat) + 1))
      (m'.pokes bus (amdProgram (i + j : Nat) (data (i + j))))

def IntelReported (bus : Bus σ) (fuel : Nat) (data : Nat → UInt8) (i j : Nat) (m : Machine σ) :
    Prop :=
  ∃ m', (intelWriteBytes bus fuel data j i 0).run m = some ((0 : Int), m') ∧
    Reported bus 0 highBit (intelError bus 0x10 ((i + j : Nat) + 1))
      (m'.pokes bus (intelProgram (i + j : Nat) (data (i + j))))

theorem amdReported_of_zero
    (h : (amdWriteBytes bus fuel data n i 0).run m = some ((0 : Int), m')) {j : Nat} (hj : j < n) :
    AmdReported bus fuel data i j m := by
  induction n generalizing i j m with
  | zero => omega
  | succ n ih =>
    rw [amdWriteBytes_succ] at h
    obtain ⟨⟨r₁, m₁⟩, hwait, hrest⟩ := Option.bind_eq_some_iff.mp h
    have hr₁ : r₁ = 0 := by
      by_contra hr
      rw [amdWriteBytes_error hr] at hrest
      exact hr (congrArg Prod.fst (Option.some.inj hrest))
    subst hr₁
    cases j with
    | zero => exact ⟨m, rfl, reported_of_poll (amdError_looks (succ_code i)) hwait⟩
    | succ j =>
      obtain ⟨m₂, hbytes, hdone⟩ := ih hrest (Nat.lt_of_succ_lt_succ hj)
      refine ⟨m₂, ?_, ?_⟩
      · rw [amdWriteBytes_succ, hwait]
        exact hbytes
      · rw [Nat.add_right_comm i 1 j] at hdone
        exact hdone

theorem intelReported_of_zero
    (h : (intelWriteBytes bus fuel data n i 0).run m = some ((0 : Int), m')) {j : Nat}
    (hj : j < n) : IntelReported bus fuel data i j m := by
  induction n generalizing i j m with
  | zero => omega
  | succ n ih =>
    rw [intelWriteBytes_succ] at h
    obtain ⟨⟨r₁, m₁⟩, hwait, hrest⟩ := Option.bind_eq_some_iff.mp h
    have hr₁ : r₁ = 0 := by
      by_contra hr
      exact hr (intelWriteBytes_error hr hrest).symm
    subst hr₁
    cases j with
    | zero => exact ⟨m, rfl, reported_of_poll (intelError_looks (succ_code i)) hwait⟩
    | succ j =>
      obtain ⟨m₂, hbytes, hdone⟩ := ih hrest (Nat.lt_of_succ_lt_succ hj)
      refine ⟨m₂, ?_, ?_⟩
      · rw [intelWriteBytes_succ, hwait]
        exact hbytes
      · rw [Nat.add_right_comm i 1 j] at hdone
        exact hdone

end Bytes

/-! ### The routines that wait -/

/-- A call of a routine that waits for the chip. -/
inductive Waiter where
  | amdEraseChip (output : Bool)
  | amdEraseBlock (block : Int) (output : Bool)
  | amdWriteBlock (block : Int) (data : Nat → UInt8)
  | intelEraseBlock (block : Int) (output : Bool)
  | intelWriteBlock (block : Int) (data : Nat → UInt8)

namespace Waiter

def run (bus : Bus σ) (fuel : Nat) : Waiter → FlashM σ Int
  | .amdEraseChip output => Flash.amdEraseChip bus fuel output
  | .amdEraseBlock block output => Flash.amdEraseBlock bus fuel block output
  | .amdWriteBlock block data => Flash.amdWriteBlock bus fuel block data
  | .intelEraseBlock block output => Flash.intelEraseBlock bus fuel block output
  | .intelWriteBlock block data => Flash.intelWriteBlock bus fuel block data

/-- The chip has shown that what it was told to do is done; a page is done byte by byte. -/
def Completed (bus : Bus σ) (fuel : Nat) (m : Machine σ) : Waiter → Prop
  | .amdEraseChip _ => Reported bus 0 highBit (amdError bus 0 highBit (-1))
      (m.pokes bus (amdErase 0x555 0x10))
  | .amdEraseBlock block _ => Reported bus 0 highBit (amdError bus 0 highBit (-1))
      (m.pokes bus (amdErase (block <<< (16 : Nat)) 0x30))
  | .amdWriteBlock block data => ∀ j, j < romPagesize →
      AmdReported bus fuel data 0 j (m.setBankPage m.eepromBank block)
  | .intelEraseBlock block _ => Reported bus 0 highBit (intelError bus 0x20 (-1))
      ((m.setBankPage m.eepromBank block).pokes bus [(0, 0x20), (0, 0xd0)])
  | .intelWriteBlock block data => ∀ j, j < romPagesize →
      IntelReported bus fuel data 0 j (m.setBankPage m.eepromBank block)

def Ends (bus : Bus σ) (m : Machine σ) (w : Waiter) : Prop :=
  ∃ fuel r m', (w.run bus fuel).run m = some (r, m')

/-- The turns are counted, or the call is refused, or the chip answers. -/
def Bounded (bus : Bus σ) (m : Machine σ) : Waiter → Prop
  | .amdEraseChip output => output = true ∨
      Answered bus 0 highBit (amdError bus 0 highBit (-1)) (m.pokes bus (amdErase 0x555 0x10))
  | .amdEraseBlock block output => badBlock m block = true ∨ output = true ∨
      Answered bus 0 highBit (amdError bus 0 highBit (-1))
      (m.pokes bus (amdErase (block <<< (16 : Nat)) 0x30))
  | .intelEraseBlock block output => (badBlock m block = true ∨ m.board = .monterey) ∨
      output = true ∨ Answered bus 0 highBit (intelError bus 0x20 (-1))
        ((m.setBankPage m.eepromBank block).pokes bus [(0, 0x20), (0, 0xd0)])
  | .amdWriteBlock _ _ | .intelWriteBlock _ _ => True

end Waiter

theorem map_ends {α β : Type} {p : Nat → Option (Int × α)} {f : Int × α → Int × β} :
    (∃ fuel r m', (p fuel).map f = some (r, m')) ↔ ∃ fuel r m', p fuel = some (r, m') := by
  constructor
  · rintro ⟨fuel, r, m', h⟩
    obtain ⟨⟨r₁, m₁⟩, hp, -⟩ := Option.map_eq_some_iff.mp h
    exact ⟨fuel, r₁, m₁, hp⟩
  · rintro ⟨fuel, r, m', h⟩
    exact ⟨fuel, _, _, Option.map_eq_some_iff.mpr ⟨_, h, rfl⟩⟩

/-- The waits of the erase routines. -/
theorem erase_ends {error : FlashM σ (Option Int)} (hlooks : Looks error) (output : Bool)
    (m : Machine σ) :
    (∃ fuel r m', (poll bus off ready error output fuel 0 0).run m = some (r, m')) ↔
      output = true ∨ Answered bus off ready error m := by
  cases output with
  | true => exact iff_of_true ⟨enough, poll_enough hlooks 0 m⟩ (Or.inl rfl)
  | false =>
    rw [poll_uncounted hlooks 0 (by decide), or_iff_right Bool.false_ne_true]

theorem refused_ends {c : Prop} [Decidable c] {x : Int × Machine σ}
    {p : Nat → Option (Int × Machine σ)} :
    (∃ fuel r m', (if c then some x else p fuel) = some (r, m')) ↔
      c ∨ ∃ fuel r m', p fuel = some (r, m') := by
  by_cases hc : c
  · exact iff_of_true ⟨0, x.1, x.2, if_pos hc⟩ (Or.inl hc)
  · simp only [if_neg hc]
    exact (or_iff_right hc).symm

theorem waiter_ends (bus : Bus σ) (m : Machine σ) (w : Waiter) :
    w.Ends bus m ↔ w.Bounded bus m := by
  unfold Waiter.Ends
  cases w with
  | amdEraseChip output =>
    simp only [Waiter.run, Waiter.Bounded, amdEraseChip_run]
    exact map_ends.trans (erase_ends (amdError_looks (by decide)) output _)
  | amdEraseBlock block output =>
    simp only [Waiter.run, Waiter.Bounded, amdEraseBlock_run]
    exact refused_ends.trans (or_congr_right
      (map_ends.trans (erase_ends (amdError_looks (by decide)) output _)))
  | amdWriteBlock block data =>
    simp only [Waiter.run, Waiter.Bounded, amdWriteBlock_run]
    refine iff_of_true (refused_ends.mpr (Or.inr (map_ends.mpr ⟨enough, ?_⟩))) trivial
    exact amdWriteBytes_enough _ _ _ _
  | intelEraseBlock block output =>
    simp only [Waiter.run, Waiter.Bounded, intelEraseBlock_run]
    exact refused_ends.trans (or_congr_right
      (map_ends.trans (erase_ends (intelError_looks (by decide)) output _)))
  | intelWriteBlock block data =>
    simp only [Waiter.run, Waiter.Bounded, intelWriteBlock_run]
    refine iff_of_true (refused_ends.mpr (Or.inr (refused_ends.mpr (Or.inr
      (map_ends.mpr ⟨enough, ?_⟩))))) trivial
    exact intelWriteBytes_enough _ _ _ _

/-- A result of 0 comes from a run of the part that waits. -/
theorem of_map_zero {p : Option (Int × Machine σ)}
    (h : p.map m.back = some ((0 : Int), m')) : ∃ m₁, p = some ((0 : Int), m₁) := by
  obtain ⟨⟨r₁, m₁⟩, hp, hback⟩ := Option.map_eq_some_iff.mp h
  have hr : r₁ = 0 := congrArg Prod.fst hback
  exact ⟨m₁, hr ▸ hp⟩

theorem of_refused_zero {c : Prop} [Decidable c] {code : Int} {p : Option (Int × Machine σ)}
    (hcode : code ≠ 0) (h : (if c then some (code, m) else p) = some ((0 : Int), m')) :
    p = some ((0 : Int), m') := by
  by_cases hc : c
  · rw [if_pos hc] at h
    exact absurd (congrArg Prod.fst (Option.some.inj h)) hcode
  · rwa [if_neg hc] at h

/-- What returns 0 has been done. -/
theorem waiter_completed {w : Waiter} (h : (w.run bus fuel).run m = some ((0 : Int), m')) :
    w.Completed bus fuel m := by
  cases w with
  | amdEraseChip output =>
    obtain ⟨⟨r₁, m₁⟩, hwait, hback⟩ := Option.map_eq_some_iff.mp
      ((amdEraseChip_run _ _ _ _).symm.trans h)
    have hr : r₁ = 0 := congrArg Prod.fst hback
    exact reported_of_poll (amdError_looks (by decide)) (hr ▸ hwait)
  | amdEraseBlock block output =>
    obtain ⟨m₁, hwait⟩ := of_map_zero (of_refused_zero (by decide)
      ((amdEraseBlock_run _ _ _ _ _).symm.trans h))
    exact reported_of_poll (amdError_looks (by decide)) hwait
  | amdWriteBlock block data =>
    obtain ⟨m₁, hbytes⟩ := of_map_zero (of_refused_zero (by decide)
      ((amdWriteBlock_run _ _ _ _ _).symm.trans h))
    exact fun j hj => amdReported_of_zero hbytes hj
  | intelEraseBlock block output =>
    obtain ⟨m₁, hwait⟩ := of_map_zero (of_refused_zero (by decide)
      ((intelEraseBlock_run _ _ _ _ _).symm.trans h))
    exact reported_of_poll (intelError_looks (by decide)) hwait
  | intelWriteBlock block data =>
    obtain ⟨m₁, hbytes⟩ := of_map_zero (of_refused_zero (by decide) (of_refused_zero (by decide)
      ((intelWriteBlock_run _ _ _ _ _).symm.trans h)))
    exact fun j hj => intelReported_of_zero hbytes hj

/-- Only an erase without output can wait for ever. -/
theorem waiter_ends_iff (bus : Bus σ) (m : Machine σ) (w : Waiter) :
    (w.Ends bus m ∧ ∀ fuel r m', (w.run bus fuel).run m = some (r, m') →
      ¬ w.Completed bus fuel m → r ≠ 0) ↔ w.Bounded bus m := by
  rw [waiter_ends, and_iff_left_iff_imp]
  rintro - fuel r m' hrun hdone rfl
  exact hdone (waiter_completed hrun)

/-! ### With enough turns everything else ends -/

section Ends

variable {data : Nat → UInt8} {k : Kind}

theorem romRead_terminates (bus : Bus σ) (i : Int) : Terminates (romRead bus i) :=
  fun _ => ⟨_, _, rfl⟩

theorem romWrite_terminates (bus : Bus σ) (i : Int) (v : UInt8) : Terminates (romWrite bus i v) :=
  fun _ => ⟨_, _, rfl⟩

theorem eepromSetBankPage_terminates (bank page : Int) :
    Terminates (eepromSetBankPage bank page : FlashM σ Int) := by
  intro m
  obtain ⟨r, hrun⟩ := eepromSetBankPage_run bank page m
  exact ⟨r, _, hrun⟩

theorem amdWriteBlock_terminates (block : Int) (data : Nat → UInt8) :
    Terminates (amdWriteBlock bus enough block data) :=
  .bind .get fun _ => .ite (fun _ => .pure _) fun _ =>
    .bind (eepromSetBankPage_terminates _ _) fun _ =>
      .bind (fun m => amdWriteBytes_enough _ _ _ m) fun r =>
        .bind (eepromSetBankPage_terminates _ _) fun _ => .pure r

theorem intelWriteBlock_terminates (block : Int) (data : Nat → UInt8) :
    Terminates (intelWriteBlock bus enough block data) :=
  .bind .get fun _ => .ite (fun _ => .pure _) fun _ => .ite (fun _ => .pure _) fun _ =>
    .bind (eepromSetBankPage_terminates _ _) fun _ =>
      .bind (fun m => intelWriteBytes_enough _ _ _ m) fun r =>
        .bind (eepromSetBankPage_terminates _ _) fun _ => .pure r

theorem writePages_terminates {write : Int → (Nat → UInt8) → FlashM σ Int}
    (hwrite : ∀ page data, Terminates (write page data)) (n page : Nat) (r : Int) :
    Terminates (writePages write data n page r) := by
  induction n generalizing page r with
  | zero => exact .pure _
  | succ n ih =>
    exact .ite (fun _ => .pure _) fun _ => .bind .get fun m =>
      .bind (eepromSetBankPage_terminates _ _) fun _ => .bind (hwrite _ _) fun r => ih (page + 1) r

theorem chipWriteChip_terminates (data : Nat → UInt8) (size : Int) (k : Kind) :
    Terminates (chipWriteChip bus enough data size k) := by
  cases k with
  | amd =>
    exact .bind .get fun m => .ite (fun _ => .pure _) fun _ =>
      .bind (writePages_terminates amdWriteBlock_terminates _ 0 0) fun r =>
        .bind (romWrite_terminates _ _ _) fun _ =>
          .bind (eepromSetBankPage_terminates _ _) fun _ => .pure r
  | intel =>
    exact .bind .get fun m => .ite (fun _ => .pure _) fun _ => .ite (fun _ => .pure _) fun _ =>
      .bind (writePages_terminates intelWriteBlock_terminates _ 0 0) fun r =>
        .bind (romWrite_terminates _ _ _) fun _ =>
          .bind (eepromSetBankPage_terminates _ _) fun _ => .pure r

theorem verifyBytes_terminates (data : Nat → UInt8) (n i : Nat) :
    Terminates (verifyBytes bus data n i) := by
  induction n generalizing i with
  | zero => exact .pure _
  | succ n ih =>
    exact .bind (romRead_terminates _ _) fun _ => .ite (fun _ => .pure _) fun _ => ih (i + 1)

theorem verifyPages_terminates (data : Nat → UInt8) (n page : Nat) :
    Terminates (verifyPages bus data n page) := by
  induction n generalizing page with
  | zero => exact .pure _
  | succ n ih =>
    refine .bind .get fun m => .bind (eepromSetBankPage_terminates _ _) fun _ =>
      .bind (verifyBytes_terminates _ _ _) fun bad => ?_
    cases bad with
    | none => exact ih (page + 1)
    | some i => exact .pure _

theorem genericVerifyChip_terminates (data : Nat → UInt8) (size : Int) :
    Terminates (genericVerifyChip bus data size) := by
  refine .bind .get fun m => .ite (fun _ => .pure _) fun _ =>
    .bind (verifyPages_terminates _ _ _) fun bad =>
      .bind (eepromSetBankPage_terminates _ _) fun _ => ?_
  cases bad with
  | none => exact .pure _
  | some i => exact .pure _

theorem chipReset_terminates (bus : Bus σ) (k : Kind) : Terminates (chipReset bus k) := by
  cases k with
  | amd => exact romWrite_terminates _ _ _
  | intel => exact romWrite_terminates _ _ _

theorem chipVerifyChip_terminates (data : Nat → UInt8) (size : Int) (k : Kind) :
    Terminates (chipVerifyChip bus data size k) := by
  cases k with
  | amd => exact .bind (romWrite_terminates _ _ _) fun _ => genericVerifyChip_terminates _ _
  | intel => exact .bind (romWrite_terminates _ _ _) fun _ => genericVerifyChip_terminates _ _

/-- Writing a bank ends if something is known of the bank. -/
theorem eepromWriteChip_ends {t : EepromType} {bank : Int} (ht : m.eeproms bank = some t)
    (data : Nat → UInt8) (size : UInt32) :
    ∃ r m', (eepromWriteChip bus enough bank data size).run m = some (r, m') := by
  have hset : (m.setBankPage bank 0).eeproms bank = some t := by
    rw [setBankPage_eeproms]
    exact ht
  unfold eepromWriteChip
  rw [run_setBankPage_bind, eepromAt, bind_assoc, run_get_bind, hset, pure_bind]
  cases t.kind with
  | none => exact ⟨0, _, rfl⟩
  | some k =>
    have hends : Terminates (chipWriteChip bus enough data size.toInt32.toInt k >>= fun ret =>
        chipReset bus k >>= fun _ => if ret ≠ 0 then pure ret else
          chipVerifyChip bus data size.toInt32.toInt k >>= fun ret =>
            chipReset bus k >>= fun _ => pure ret) :=
      .bind (chipWriteChip_terminates _ _ _) fun ret => .bind (chipReset_terminates _ _) fun _ =>
        .ite (fun _ => .pure _) fun _ => .bind (chipVerifyChip_terminates _ _ _) fun ret =>
          .bind (chipReset_terminates _ _) fun _ => .pure ret
    exact hends _

end Ends

/-- An erased board whose chip never gets ready. -/
def deadBus : Bus Unit := ⟨fun _ _ => (0x00, ()), fun _ _ _ => ()⟩

def deadBoard : Machine Unit where
  board := .carmel
  pageReg := 0
  pagePort := 0
  rom := windowAddr
  flatRomBase := 0
  eepromBank := 0
  eepromPage := 0
  eepromFsOffset := 0x10000
  eeproms bank := if bank = 0 then eepromTypes[0]? else none
  eepromIds _ := 0x01d5
  dev := ()

theorem quietTurns_dead (n : Nat) (m : Machine Unit) :
    quietTurns deadBus 0 highBit (amdError deadBus 0 highBit (-1)) n m = some m := by
  induction n with
  | zero => rfl
  | succ n ih => exact ih

theorem waiter_dead_waits : ¬ (Waiter.amdEraseBlock 1 false).Ends deadBus deadBoard := by
  rw [waiter_ends]
  rintro (hbad | hout | ⟨n, hn⟩)
  · revert hbad
    decide
  · cases hout
  · rw [quietTurns_dead] at hn
    cases hn

end Flash
