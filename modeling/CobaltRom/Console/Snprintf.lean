import CobaltRom.Console.PrintedNumerals

/-! `snprintf` beside `sprintf`: the same text, cut off. -/
namespace Console

/-- A number is printed without a store outside `nbuf`. -/
def NumFits (env : PrintEnv) (c : Conv) (base : Int32) (args : Nat) : Prop :=
  if hasFlag c.mod convModLonglong then
    BufferFits c (leadChars env.nbuf c (isNegLl c (longlongArg env args)) base).length
      (digitCount base.toInt.toNat (magnitudeLl c (longlongArg env args)))
  else
    BufferFits c (leadChars env.nbuf c (isNeg c (env.args args)) base).length
      (digitCount base.toInt.toNat (magnitude c (env.args args)))

/-- The copy that a precision asks for gets its memory. -/
def CopyServed (env : PrintEnv) (c : Conv) : Prop :=
  0 < c.precis → 0 < (c.precis + 1).toInt ∧ env.heap (c.precis + 1).toInt.toNat = true

/-- A conversion stays inside `nbuf`, and gets its memory. -/
def SafeConv (env : PrintEnv) (c : Conv) (spec : UInt8) (args : Nat) : Prop :=
  if spec = ch 'd' ∨ spec = ch 'i' then NumFits env c 10 args
  else if spec = ch 'o' then NumFits env c.unsigned 8 args
  else if spec = ch 'X' then NumFits env { c.unsigned with alt := c.alt ||| convAltUpper } 16 args
  else if spec = ch 'x' then NumFits env c.unsigned 16 args
  else if spec = ch 'b' then NumFits env c.unsigned 2 args
  else if spec = ch 'u' then NumFits env c.unsigned 10 args
  else if spec = ch 's' then env.args args ≠ 0 → CopyServed env c
  else if spec = ch 'p' then
    let c := { c.unsigned with alt := c.alt ||| (convAltHash ||| convAltZero) }
    BufferFits c (leadChars env.nbuf c (isNeg c (env.args args)) 16).length
      (digitCount 16 (magnitude c (env.args args)))
  else True

/-- A run that has taken `args` words at the format `p` meets the conversion `c` with the specifier
`spec` after `a` words. -/
inductive Meets (env : PrintEnv) : Nat → List UInt8 → Conv → UInt8 → Nat → Prop
  | char {args a : Nat} {x spec : UInt8} {p : List UInt8} {c : Conv} (hx : x ≠ ch '%')
    (h : Meets env args p c spec a) : Meets env args (x :: p) c spec a
  | here {args a : Nat} {spec : UInt8} {p k : List UInt8} {c : Conv}
    (h : scanConv env args p = some (c, a, spec :: k)) : Meets env args (ch '%' :: p) c spec a
  | later {args a a' : Nat} {spec spec' : UInt8} {p k : List UInt8} {c c' : Conv}
    (h : scanConv env args p = some (c', a', spec' :: k))
    (hk : Meets env (convert env c' spec' a' none).1 k c spec a) :
    Meets env args (ch '%' :: p) c spec a

/-- Every conversion that is met is safe. -/
def PrintsSafely (env : PrintEnv) (args : Nat) (p : List UInt8) : Prop :=
  ∀ c spec a, Meets env args p c spec a → SafeConv env c spec a

/-- There is a text that `sprintf` leaves in every block with room for it, and of which `snprintf`
leaves the first `n - 1` characters and a NUL in every block of `n` bytes or more, whose bytes
from `n` on stay as they are. -/
def Truncates (env : PrintEnv) (fmt : List UInt8) (n : Nat) : Prop :=
  ∃ text : List UInt8, (0 : UInt8) ∉ text ∧
    (∀ old : Block, text.length < old.length → ∃ len b, sprintf env old fmt = some (len, b) ∧
      b.buf = some (cells text ++ old.drop (text.length + 1))) ∧
    ∀ old : Block, n ≤ old.length → ∃ len b rest, snprintf env old n fmt = some (len, b) ∧
      b.buf = some (cells (text.take (n - 1)) ++ rest ++ old.drop n) ∧
      (cells (text.take (n - 1)) ++ rest).length = n

/-- What is appended does not depend on the buffer; without `P` the run is undefined. -/
structure EmitsIff (env : PrintEnv) (P : Prop) (f : Printed → Option Printed) : Prop where
  emits : P → ∃ out, Emits env.heap Printed.buf f out
  faults : ¬ P → ∀ o, f o = none

/-- The output of the loop from `p` on. -/
def coreOut (env : PrintEnv) (fuel : Nat) (p : List UInt8) (args : Nat) (o : Printed) :
    Option Printed :=
  (coreLoop env fuel { p := p, args := args, out := some o }).bind Core.out

variable {env : PrintEnv} {P Q : Prop} {f g : Printed → Option Printed} {c : Conv} {base : Int32}
  {args a fuel n : Nat} {spec x : UInt8} {p k l : List UInt8} {s t : Core} {out : Option Printed}

theorem EmitsIff.bind (hf : EmitsIff env P f) (hg : EmitsIff env Q g) :
    EmitsIff env (P ∧ Q) fun o => (f o).bind g := by
  constructor
  · rintro ⟨hp, hq⟩
    obtain ⟨out, hout⟩ := hf.emits hp
    obtain ⟨out', hout'⟩ := hg.emits hq
    exact ⟨_, hout.bind hout'⟩
  · intro h o
    by_cases hp : P
    · have hgone : g = fun _ => none := funext (hg.faults fun hq => h ⟨hp, hq⟩)
      rw [hgone, Option.bind_fun_none]
    · rw [hf.faults hp]
      rfl

theorem EmitsIff.congr (hf : EmitsIff env P f) (h : ∀ o, g o = f o) : EmitsIff env P g := by
  rw [show g = f from funext h]
  exact hf

theorem EmitsIff.of_iff (hf : EmitsIff env P f) (h : Q ↔ P) : EmitsIff env Q f := by
  rwa [propext h]

theorem EmitsIff.of_emits {out : List UInt8} (h : Emits env.heap Printed.buf f out) (hp : P) :
    EmitsIff env P f :=
  ⟨fun _ => ⟨out, h⟩, fun hno => absurd hp hno⟩

/-! ### One conversion -/

/-- Either formatter, from the sign on. -/
theorem appendNum_emitsIff (env : PrintEnv) (isneg : Bool) (hbase : baseOk base = true)
    (hn : n < 2 ^ 64) :
    EmitsIff env
    (BufferFits c (leadChars env.nbuf c isneg base).length (digitCount base.toInt.toNat n))
      fun o => o.put (appendNum env.heap env.nbuf o.buf c isneg n base) := by
  obtain ⟨hb, -⟩ := baseOk_toNat hbase
  have hiff : TextFits c (leadChars env.nbuf c isneg base).length base.toInt.toNat n ↔ _ :=
    textFits_iff hb (digitCount_le hb hn) (leadChars_length env.nbuf c isneg base)
  constructor
  · intro hfit
    exact ⟨_, (emits_appendNum env.heap env.nbuf isneg hbase (hiff.mpr hfit)).put⟩
  · intro hno o
    rw [appendNum_none env.heap env.nbuf o.buf isneg hbase hn fun h => hno (hiff.mp h)]
    rfl

theorem sprintfNum_emitsIff (env : PrintEnv) (hbase : baseOk base = true) (num : UInt32) :
    EmitsIff env (BufferFits c (leadChars env.nbuf c (isNeg c num) base).length
        (digitCount base.toInt.toNat (magnitude c num)))
      fun o => o.put (sprintfNum env.heap env.nbuf o.buf c num base) :=
  (appendNum_emitsIff env _ hbase (magnitude_lt c num)).congr fun o => by
    rw [sprintfNum, if_pos hbase]

/-- How many words are taken and what is appended do not depend on the output so far, and the
appending is undefined exactly without `P`. -/
def Converts (env : PrintEnv) (P : Prop) (args : Nat) (f : Option Printed → Nat × Option Printed) :
    Prop :=
  ∃ k g, (∀ out, f out = (args + k, out.bind g)) ∧ EmitsIff env P g

theorem convertNum_converts (env : PrintEnv) (c : Conv) (args : Nat) (hbase : baseOk base = true) :
    Converts env (NumFits env c base args) args (convertNum env c base args) := by
  by_cases hll : hasFlag c.mod convModLonglong = true
  · refine ⟨2, fun o => o.put (sprintfLlNum env.heap env.nbuf o.buf c (longlongArg env args) base),
      fun out => by rw [convertNum, if_pos hll], ?_⟩
    rw [NumFits, if_pos hll]
    exact (appendNum_emitsIff env _ hbase (UInt64.toNat_lt _)).congr fun o => by
      rw [sprintfLlNum, if_pos hbase]
      rfl
  · refine ⟨1, fun o => o.put (sprintfNum env.heap env.nbuf o.buf c (env.args args) base),
      fun out => by rw [convertNum, if_neg hll], ?_⟩
    rw [NumFits, if_neg hll]
    exact sprintfNum_emitsIff env hbase (env.args args)

/-- What both ways through `sprintf_string` do with their string. -/
theorem emits_putString (heap : Heap) {str : List UInt8} (hstr : (0 : UInt8) ∉ str) :
    Emits heap Printed.buf (fun o =>
      o.put ((strbufAppend heap o.buf str).map fun r => (r.2.len - o.buf.len, r.2))) str := by
  have hcall : Emits heap id (fun b =>
      ((strbufAppend heap b str).map fun r => (r.2.len - b.len, r.2)).map Prod.snd) str :=
    (emits_append hstr).congr fun b => by rw [Option.map_map]; rfl
  exact hcall.put

theorem sprintfString_emitsIff (env : PrintEnv) (c : Conv) (ptr : UInt32) :
    EmitsIff env (ptr ≠ 0 → CopyServed env c) fun o =>
      o.put (sprintfString env.heap o.buf c
        (if ptr = 0 then none else some (env.str ptr).text)) := by
  by_cases hptr : ptr = 0
  · have hnull : (0 : UInt8) ∉ "(NULL)".toList.map ch := by decide
    refine EmitsIff.of_emits ((emits_putString env.heap hnull).congr fun o => ?_)
      fun h => absurd hptr h
    rw [if_pos hptr]
    rfl
  · simp only [if_neg hptr, sprintfString]
    by_cases hprecis : 0 < c.precis
    · simp only [if_pos hprecis]
      by_cases hserved : 0 < (c.precis + 1).toInt ∧ env.heap (c.precis + 1).toInt.toNat = true
      · have hnul : (0 : UInt8) ∉ (env.str ptr).text.take c.precis.toNatClampNeg := fun h =>
          (env.str ptr).nul (List.mem_of_mem_take h)
        refine EmitsIff.of_emits ((emits_putString env.heap hnul).congr fun o => ?_)
          fun _ _ => hserved
        rw [malloc, if_pos hserved, Option.bind_some]
      · refine ⟨fun h => absurd (h hptr hprecis) hserved, fun _ o => ?_⟩
        rw [malloc, if_neg hserved]
        rfl
    · simp only [if_neg hprecis]
      exact EmitsIff.of_emits (emits_putString env.heap (env.str ptr).nul) fun _ h =>
        absurd h hprecis

theorem putc_emits (heap : Heap) (x : UInt8) :
    Emits heap Printed.buf (fun o => o.put (strbufAppendc heap o.buf x)) (charStr x) :=
  (emits_appendc heap x).put

theorem converts_putc (env : PrintEnv) (k args : Nat) (x : UInt8) :
    Converts env True args fun out =>
    (args + k, out.bind fun o => o.put (strbufAppendc env.heap o.buf x)) :=
  ⟨k, _, fun _ => rfl, EmitsIff.of_emits (putc_emits env.heap x) trivial⟩

/-- Each conversion appends a text of its own if and only if it is safe. -/
theorem convert_converts (env : PrintEnv) (c : Conv) (spec : UInt8) (args : Nat) :
    Converts env (SafeConv env c spec args) args (convert env c spec args) := by
  unfold convert SafeConv
  by_cases hd : spec = ch 'd' ∨ spec = ch 'i'
  · simp only [if_pos hd]
    exact convertNum_converts env _ args (by decide)
  simp only [if_neg hd]
  by_cases ho : spec = ch 'o'
  · simp only [if_pos ho]
    exact convertNum_converts env _ args (by decide)
  simp only [if_neg ho]
  by_cases hX : spec = ch 'X'
  · simp only [if_pos hX]
    exact convertNum_converts env _ args (by decide)
  simp only [if_neg hX]
  by_cases hx : spec = ch 'x'
  · simp only [if_pos hx]
    exact convertNum_converts env _ args (by decide)
  simp only [if_neg hx]
  by_cases hb : spec = ch 'b'
  · simp only [if_pos hb]
    exact convertNum_converts env _ args (by decide)
  simp only [if_neg hb]
  by_cases hu : spec = ch 'u'
  · simp only [if_pos hu]
    exact convertNum_converts env _ args (by decide)
  simp only [if_neg hu]
  by_cases hc : spec = ch 'c'
  · have hs : spec ≠ ch 's' := by rw [hc]; decide
    have hp : spec ≠ ch 'p' := by rw [hc]; decide
    simp only [if_pos hc, if_neg hs, if_neg hp]
    exact converts_putc env 1 args _
  simp only [if_neg hc]
  by_cases hs : spec = ch 's'
  · simp only [if_pos hs]
    exact ⟨1, _, fun _ => rfl, sprintfString_emitsIff env c (env.args args)⟩
  simp only [if_neg hs]
  by_cases hp : spec = ch 'p'
  · simp only [if_pos hp]
    exact ⟨1, _, fun _ => rfl, sprintfNum_emitsIff env (by decide) (env.args args)⟩
  simp only [if_neg hp]
  by_cases hn : spec = ch 'n'
  · simp only [if_pos hn]
    have hstore : Emits env.heap Printed.buf (fun o =>
        some { o with stored := o.stored ++ [(env.args args, o.buf.len)] }) [] :=
      ⟨List.not_mem_nil, fun _ _ _ o _ ho _ => ⟨_, rfl, by rwa [List.append_nil]⟩⟩
    exact ⟨1, _, fun out => by cases out <;> rfl, EmitsIff.of_emits hstore trivial⟩
  · simp only [if_neg hn]
    exact converts_putc env 0 args spec

/-! ### The loop -/

theorem convert_none (env : PrintEnv) (c : Conv) (spec : UInt8) (args : Nat) :
    (convert env c spec args none).2 = none := by
  obtain ⟨k, g, hconv, -⟩ := convert_converts env c spec args
  rw [hconv]
  rfl

/-- An output that is undefined stays so. -/
theorem coreLoop_none (fuel : Nat) : ∀ s t : Core, s.out = none → coreLoop env fuel s = some t →
    t.out = none := by
  induction fuel with
  | zero =>
    intro s t _ h
    cases h
  | succ fuel ih =>
    intro s t hs h
    rw [coreLoop] at h
    split at h
    · cases h
    · rename_i c p hp
      by_cases h0 : c = 0
      · rw [if_pos h0] at h
        cases h
        exact hs
      · rw [if_neg h0] at h
        obtain ⟨u, hu, hrest⟩ := Option.bind_eq_some_iff.mp h
        refine ih u t ?_ hrest
        rw [coreTurn] at hu
        by_cases hc : c = ch '%'
        · rw [if_pos hc] at hu
          obtain ⟨r, -, hr⟩ := Option.bind_eq_some_iff.mp hu
          split at hr
          · cases hr
          · cases hr
            rw [hs]
            exact convert_none env _ _ _
        · rw [if_neg hc, hs] at hu
          cases hu
          rfl

theorem coreOut_bind (env : PrintEnv) (fuel : Nat) (p : List UInt8) (args : Nat)
    (out : Option Printed) :
    (coreLoop env fuel { p := p, args := args, out := out }).bind Core.out =
      out.bind (coreOut env fuel p args) := by
  cases out with
  | some o => rfl
  | none =>
    cases h : coreLoop env fuel { p := p, args := args, out := none } with
    | none => rfl
    | some t => exact coreLoop_none fuel _ t rfl h

theorem printsSafely_char (hx : x ≠ ch '%') :
    PrintsSafely env args (x :: p) ↔ PrintsSafely env args p := by
  constructor
  · exact fun h c spec a hmeets => h c spec a (.char hx hmeets)
  · intro h c spec a hmeets
    cases hmeets with
    | char _ hmeets => exact h c spec a hmeets
    | here _ => exact absurd rfl hx
    | later _ _ => exact absurd rfl hx

theorem printsSafely_conv (hscan : scanConv env args p = some (c, a, spec :: k)) :
    PrintsSafely env args (ch '%' :: p) ↔
      SafeConv env c spec a ∧ PrintsSafely env (convert env c spec a none).1 k := by
  constructor
  · exact fun h =>
      ⟨h c spec a (.here hscan), fun c' spec' a' hmeets => h c' spec' a' (.later hscan hmeets)⟩
  · rintro ⟨hsafe, hrest⟩ c' spec' a' hmeets
    cases hmeets with
    | char hx _ => exact absurd rfl hx
    | here h =>
      rw [hscan] at h
      cases h
      exact hsafe
    | later h hmeets =>
      rw [hscan] at h
      cases h
      exact hrest c' spec' a' hmeets

theorem printsSafely_nul : PrintsSafely env args [0] := by
  intro c spec a hmeets
  cases hmeets with
  | char _ h => cases h

/-- Over a complete format. -/
theorem coreOut_emitsIff (h : Complete env.before l) : (0 : UInt8) ∉ l →
    ∀ fuel args, l.length < fuel →
    EmitsIff env (PrintsSafely env args (l ++ [0])) (coreOut env fuel (l ++ [0]) args) := by
  induction h with
  | nil =>
    intro _ fuel args hfuel
    obtain ⟨fuel, rfl⟩ : ∃ k, fuel = k + 1 := ⟨fuel - 1, by omega⟩
    refine EmitsIff.of_emits (emits_nothing.congr fun o => ?_) printsSafely_nul
    rw [coreOut, List.nil_append, coreLoop_nul]
    rfl
  | @char x l hx _ ih =>
    intro hl fuel args hfuel
    obtain ⟨fuel, rfl⟩ : ∃ k, fuel = k + 1 := ⟨fuel - 1, by omega⟩
    obtain ⟨h0, hl⟩ := not_or.mp (mt List.mem_cons.mpr hl)
    have hput := EmitsIff.of_emits (putc_emits env.heap x) trivial
    refine ((hput.bind (ih hl fuel args (Nat.lt_of_succ_lt_succ hfuel))).congr
      fun o => ?_).of_iff ?_
    · rw [coreOut, List.cons_append, coreLoop_char (Ne.symm h0) hx, coreOut_bind]
      rfl
    · rw [List.cons_append, printsSafely_char hx, true_and]
  | @conv l k spec hhead _ ih =>
    intro hl fuel args hfuel
    obtain ⟨fuel, rfl⟩ : ∃ k, fuel = k + 1 := ⟨fuel - 1, by omega⟩
    obtain ⟨c, a, hscan⟩ := scanConv_rest env args l
    rw [hhead, List.cons_append] at hscan
    have hsuf : spec :: k <:+ l := hhead ▸ afterHead_suffix env.before l
    have hlen := hsuf.length_le
    have hnul : (0 : UInt8) ∉ k := fun h0 =>
      hl (List.mem_cons_of_mem _ (hsuf.subset (List.mem_cons_of_mem spec h0)))
    have hrest := ih hnul fuel (convert env c spec a none).1 (by
      simp only [List.length_cons] at hlen hfuel
      omega)
    obtain ⟨n, g, hconv, hemits⟩ := convert_converts env c spec a
    refine ((hemits.bind hrest).congr fun o => ?_).of_iff ?_
    · rw [coreOut, List.cons_append, coreLoop_conv hscan, coreOut_bind, hconv, hconv]
      rfl
    · rw [List.cons_append, printsSafely_conv hscan]

/-! ### The two calls -/

theorem vsnprintf_eq {fmt : List UInt8} (old : Block) (maxlen : Int) {r : Int} {b : Strbuf}
    (hinit : strbufInit env.heap (some old) (if 0 < maxlen then maxlen - 1 else strbufFixed) =
      some (r, b)) :
    vsnprintf env old maxlen fmt =
      (coreOut env (fmt.length + 1) (fmt ++ [0]) 0 { buf := b, stored := [] }).map fun o =>
        (o.buf.len, o.buf) := by
  rw [vsnprintf, hinit, Option.bind_some, coreOut, Option.map_bind]
  rfl

theorem safe_of_truncates (fmt : CStr) (hfmt : Complete env.before fmt.text)
    (h : Truncates env fmt.text n) : PrintsSafely env 0 (fmt.text ++ [0]) := by
  by_contra hno
  obtain ⟨text, -, hfixed, -⟩ := h
  have hfaults :=
    (coreOut_emitsIff hfmt fmt.nul (fmt.text.length + 1) 0 (Nat.lt_succ_self _)).faults hno
  obtain ⟨len, b, hrun, -⟩ := hfixed (List.replicate (text.length + 1) none) (by simp)
  obtain ⟨b₀, hinit, -⟩ := fixed_init env.heap (List.replicate (text.length + 1) none) (by simp)
  rw [sprintf, vsnprintf_eq _ _ hinit, hfaults] at hrun
  cases hrun

/-- `snprintf` leaves the start of what `sprintf` leaves, exactly if every conversion stays in
`nbuf` and gets the memory that it asks for. -/
theorem snprintf_truncates_iff (env : PrintEnv) (fmt : CStr) (n : Nat) (hn : 1 ≤ n)
    (hfmt : Complete env.before fmt.text) :
    Truncates env fmt.text n ↔ PrintsSafely env 0 (fmt.text ++ [0]) := by
  refine ⟨safe_of_truncates fmt hfmt, fun hsafe => ?_⟩
  obtain ⟨text, hnul, hemits⟩ :=
    (coreOut_emitsIff hfmt fmt.nul (fmt.text.length + 1) 0 (Nat.lt_succ_self _)).emits hsafe
  refine ⟨text, hnul, fun old hold => ?_, fun old hold => ?_⟩
  · obtain ⟨b₀, hinit, hb₀⟩ := fixed_init env.heap old (by omega)
    obtain ⟨o, hrun, ho⟩ :=
      hemits _ _ (accepts_fixed env.heap old) { buf := b₀, stored := [] } [] hb₀ hold
    refine ⟨o.buf.len, o.buf, ?_, ho.buf⟩
    rw [sprintf, vsnprintf_eq _ _ hinit, hrun, Option.map_some]
  · obtain ⟨b₀, hinit, hb₀⟩ := bounded_init env.heap (n - 1) (some old) (fun h => by cases h)
      (fun p hp => by cases hp; omega)
    have hmax : (if 0 < (n : Int) then (n : Int) - 1 else strbufFixed) = ((n - 1 : Nat) : Int) := by
      rw [if_pos (by omega)]
      omega
    obtain ⟨o, hrun, ho⟩ := hemits _ _ (accepts_bounded env.heap (n - 1) (old.drop (n - 1 + 1)))
      { buf := b₀, stored := [] } [] (by rwa [List.take_nil]) trivial
    obtain ⟨rest, hbuf, hrest⟩ := ho.buf
    rw [List.nil_append] at hbuf hrest
    refine ⟨o.buf.len, o.buf, rest, ?_, ?_, ?_⟩
    · rw [snprintf, vsnprintf_eq _ _ (by rw [hmax]; exact hinit), hrun, Option.map_some]
    · rw [hbuf, cells, Nat.sub_add_cancel hn]
      simp only [List.append_assoc, List.cons_append, List.nil_append]
    · rw [List.length_append, cells_length]
      omega

/-- "%d" into four bytes. -/
def intFormat : CStr := ⟨[ch '%', ch 'd'], by decide⟩

theorem snprintf_truncates_int :
    Truncates zeroEnv intFormat.text 4 ↔ PrintsSafely zeroEnv 0 (intFormat.text ++ [0]) :=
  snprintf_truncates_iff zeroEnv intFormat 4 (by decide)
    (.conv (show afterHead zeroEnv.before [ch 'd'] = [ch 'd'] by decide) .nil)

/-- "%.100s". -/
def hundredFormat : CStr := ⟨[ch '%', ch '.', ch '1', ch '0', ch '0', ch 's'], by decide⟩

/-- With a string to print, and no block left but small ones, as the warning of `sbrk` needs. -/
def fullEnv : PrintEnv := { zeroEnv with
  heap := fun size => decide (size ≤ 64)
  args := fun _ => 1
  str := fun _ => ⟨[ch 'a'], by decide⟩ }

/-- The copy of the string is made at NULL. -/
theorem snprintf_truncates_full : ¬ Truncates fullEnv hundredFormat.text 4 := by
  intro h
  have hscan : scanConv fullEnv 0 [ch '.', ch '1', ch '0', ch '0', ch 's', 0] =
      some ({ alt := 0, width := -1, precis := 100, mod := 0 }, 0, [ch 's', 0]) := by rfl
  have hhead : afterHead fullEnv.before [ch '.', ch '1', ch '0', ch '0', ch 's'] = [ch 's'] := by
    decide
  have hsafe := safe_of_truncates hundredFormat (.conv hhead .nil) h _ _ _ (.here hscan)
  have hcopy : fullEnv.args 0 ≠ 0 →
      CopyServed fullEnv { alt := 0, width := -1, precis := 100, mod := 0 } := hsafe
  exact absurd (hcopy (by decide) (by decide)).2 (by decide)

end Console
