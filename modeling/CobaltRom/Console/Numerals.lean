/-! `stoli` of `common/string.c`: numerals on the command line. -/
namespace Console

/-- A string in memory, as far as a pointer to it can reach. -/
abbrev CString := Nat → UInt8

/-- The bytes of an argument; nothing but NULs behind them. -/
def cstring (l : List UInt8) : CString := fun i => l.getD i 0

def isdigit (c : UInt8) : Bool := 0x30 ≤ c && c ≤ 0x39

def isxdigit (c : UInt8) : Bool :=
  isdigit c || (0x41 ≤ c && c ≤ 0x46) || (0x61 ≤ c && c ≤ 0x66)

def toupper (c : UInt8) : UInt8 := if 0x61 ≤ c ∧ c ≤ 0x7a then c - 0x20 else c

def hexatoi (c : UInt8) : UInt8 := if 0x30 ≤ c ∧ c ≤ 0x39 then c - 0x30 else toupper c - 0x41 + 10

/-- The loop over the digits: the counter behind them and the value, with status 1 at a
byte that is no digit. The counter has 8 bits; `none` is a loop that goes on for ever. -/
def stoliLoop (val : CString) (digit : UInt8 → Bool) (base : UInt32) :
    Nat → UInt8 → UInt32 → Option (Option UInt8 × UInt32)
  | 0, _, _ => none
  | fuel + 1, ctr, addr =>
    if val ctr.toNat = 0 then some (some ctr, addr)
    else if digit (val ctr.toNat) then
      stoliLoop val digit base fuel (ctr + 1) (addr * base + (hexatoi (val ctr.toNat)).toUInt32)
    else some (none, addr)

/-- Every counter value is seen once in so many rounds. -/
def stoliFuel : Nat := 257

/-- The status and `*addr`; `none` if it does not return. -/
def stoli (val : CString) : Option (UInt8 × UInt32) :=
  if val 1 = 0x78 ∨ val 1 = 0x58 then
    (stoliLoop val (fun c => isxdigit (toupper c)) 16 stoliFuel 2 0).map fun r =>
      match r.1 with
      | none => (1, r.2)
      | some ctr => (if ctr > 10 ∨ ctr = 2 then 1 else 0, r.2)
  else
    (stoliLoop val isdigit 10 stoliFuel 0 0).map fun r =>
      match r.1 with
      | none => (1, r.2)
      | some ctr => (if ctr > 12 then 1 else 0, r.2)

variable {val : CString} {digit : UInt8 → Bool} {base addr : UInt32} {ctr : UInt8} {fuel n : Nat}

/-- The counter does not pass a NUL at a place that it can count to. -/
theorem stoliLoop_returns (h0 : val n = 0) (hn : n < 256) (hctr : ctr.toNat ≤ n)
    (hfuel : n < fuel + ctr.toNat) : (stoliLoop val digit base fuel ctr addr).isSome := by
  induction fuel generalizing ctr addr with
  | zero => omega
  | succ fuel ih =>
    rw [stoliLoop]
    split
    · rfl
    · rename_i hval
      have hne : ctr.toNat ≠ n := fun he => hval (he ▸ h0)
      have hsucc : (ctr + 1).toNat = ctr.toNat + 1 := by
        rw [UInt8.toNat_add]
        exact Nat.mod_eq_of_lt (by rw [UInt8.toNat_one]; omega)
      split
      · exact ih (by omega) (by omega)
      · rfl

theorem stoli_returns (h0 : val n = 0) (hpos : 0 < n) (hn : n < 256) : (stoli val).isSome := by
  rw [stoli]
  split
  · rename_i hx
    have hne : n ≠ 1 := by
      rintro rfl
      rw [h0] at hx
      rcases hx with hx | hx <;> cases hx
    rw [Option.isSome_map]
    refine stoliLoop_returns h0 hn ?_ ?_
    · show 2 ≤ n
      omega
    · show n < stoliFuel + 2
      rw [stoliFuel]
      omega
  · rw [Option.isSome_map]
    refine stoliLoop_returns h0 hn (Nat.zero_le _) ?_
    show n < stoliFuel + 0
    rw [stoliFuel]
    omega

end Console
