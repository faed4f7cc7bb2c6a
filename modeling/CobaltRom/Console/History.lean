import CobaltRom.Console.RawRead
import CobaltRom.Console.StrbufOps

/-! The history ring of `common/readline.c` is the last lines saved. -/
namespace Console

/-- The ring with the `static int sync` of `saveline`. -/
structure Ring where
  hist : History
  sync : Bool

instance : NeZero histsz := ⟨by decide⟩

/-- The zeroed globals, linked into a circle. -/
def readlineInit : Ring where
  hist := { ent := fun _ => { hNum := 0, hLine := none }, histn := 0, hist0 := 0, histnum := 0 }
  sync := false

/-- `strdup (line)`, by the text it leaves. -/
def strdup (heap : Heap) (line : List UInt8) : Option (List UInt8) :=
  (malloc heap (line.length + 1)).map fun _ => line

def saveline (heap : Heap) (r : Ring) (line : List UInt8) : Int32 × Ring :=
  let h := r.hist
  let ent i := if i = h.histn then { hNum := h.histnum, hLine := strdup heap line } else h.ent i
  let histn := h.histn + 1
  let hist0 := if r.sync then histn else h.hist0
  (h.histnum,
    { hist := { ent := ent, histn := histn, hist0 := hist0, histnum := h.histnum + 1 },
      sync := if histn = hist0 then true else r.sync })

/-- `strncmp (str1, str2, n)` on the characters before the NULs. -/
def strncmp : List UInt8 → List UInt8 → Nat → Int
  | _, _, 0 => 0
  | x :: str1, y :: str2, n + 1 => if x = y then strncmp str1 str2 n else (x.toNat : Int) - y.toNat
  | str1, str2, _ + 1 => ((str1.headD 0).toNat : Int) - (str2.headD 0).toNat

/-- The `do … while (h != histn->h_prev)` of `histlookup_str`. -/
def lookupBack (hist : History) (str : List UInt8) : Nat → Fin histsz → Option (List UInt8)
  | 0, _ => none
  | k + 1, h =>
    match (hist.ent h).hLine with
    | some line =>
      if strncmp line str str.length = 0 then some line
      else if h - 1 = hist.histn - 1 then none
      else lookupBack hist str k (h - 1)
    | none => if h - 1 = hist.histn - 1 then none else lookupBack hist str k (h - 1)

def histlookupStr (hist : History) (str : List UInt8) : Option (List UInt8) :=
  lookupBack hist str histsz (hist.histn - 1)

/-- The ring after these lines. -/
def saveAll (heap : Heap) (lines : List CStr) : Ring :=
  lines.foldl (fun r line => (saveline heap r line.text).2) readlineInit

/-- The slot of line number `k`. -/
def slot (k : Nat) : Fin histsz := Fin.ofNat histsz k

/-- The ring holds the last `HISTSZ` of these lines, each in its slot. -/
structure Saved (r : Ring) (lines : List CStr) : Prop where
  histnum : r.hist.histnum = Int32.ofNat lines.length
  histn : r.hist.histn = slot lines.length
  hist0 : r.hist.hist0 = if lines.length ≤ histsz then 0 else slot lines.length
  sync : r.sync = decide (histsz ≤ lines.length)
  ent : ∀ k line, lines[k]? = some line → lines.length ≤ k + histsz →
    r.hist.ent (slot k) = { hNum := Int32.ofNat k, hLine := some line.text }
  fresh : ∀ i : Fin histsz, lines.length ≤ i.val → r.hist.ent i = { hNum := 0, hLine := none }

variable {heap : Heap} {r : Ring} {hist : History} {lines : List CStr} {line str : List UInt8}
  {k n : Nat}

/-! ### Slots -/

theorem slot_val (k : Nat) : (slot k).val = k % histsz := rfl

theorem slot_succ (k : Nat) : slot k + 1 = slot (k + 1) := by
  apply Fin.ext
  rw [Fin.val_add, slot_val, slot_val]
  simp only [histsz]
  omega

theorem slot_pred (k : Nat) : slot (k + 1) - 1 = slot k := by
  rw [← slot_succ, add_sub_cancel_right]

theorem slot_eq_iff (k n : Nat) (h : k ≤ n) (hn : n < k + histsz) : slot k = slot n ↔ k = n := by
  rw [Fin.ext_iff, slot_val, slot_val]
  simp only [histsz] at hn ⊢
  omega

theorem slot_eq_zero (k : Nat) : slot k = 0 ↔ k % histsz = 0 := by
  rw [Fin.ext_iff, slot_val]
  rfl

/-! ### Saving -/

theorem saved_init : Saved readlineInit [] where
  histnum := rfl
  histn := rfl
  hist0 := rfl
  sync := rfl
  ent := by simp
  fresh _ _ := rfl

theorem strdup_served (h : heap (line.length + 1) = true) : strdup heap line = some line := by
  rw [strdup, malloc, if_pos ⟨by omega, h⟩, Option.map_some]

theorem Saved.saveline (h : Saved r lines) (line : CStr)
    (hheap : heap (line.text.length + 1) = true) :
    Saved (saveline heap r line.text).2 (lines ++ [line]) := by
  obtain ⟨n, hn⟩ : ∃ n, n = lines.length := ⟨_, rfl⟩
  have hlen : (lines ++ [line]).length = n + 1 := by
    rw [hn, List.length_append, List.length_singleton]
  have hhistn : r.hist.histn + 1 = slot (n + 1) := by rw [h.histn, ← hn, slot_succ]
  have hsync : r.sync = decide (histsz ≤ n) := by rw [h.sync, hn]
  have hhist0 : (if r.sync then r.hist.histn + 1 else r.hist.hist0) =
      if n + 1 ≤ histsz then 0 else slot (n + 1) := by
    rw [hhistn, hsync, h.hist0, ← hn]
    by_cases hfull : histsz ≤ n
    · rw [if_pos (decide_eq_true hfull), if_neg (by omega)]
    · rw [if_neg (by simpa using hfull), if_pos (by omega), if_pos (by omega)]
  have hother : ∀ i, i ≠ slot n → (Console.saveline heap r line.text).2.hist.ent i =
      r.hist.ent i := by
    intro i hi
    rw [hn] at hi
    simp only [Console.saveline, h.histn, if_neg hi]
  refine ⟨?_, ?_, ?_, ?_, ?_, ?_⟩
  · rw [hlen, hn]
    simp only [Console.saveline, h.histnum, Int32.ofNat_add]
    rfl
  · rw [hlen]
    exact hhistn
  · rw [hlen]
    exact hhist0
  · rw [hlen]
    simp only [Console.saveline, hhist0]
    rw [hhistn, hsync]
    by_cases hfull : n + 1 ≤ histsz
    · rw [if_pos hfull]
      by_cases hlast : n + 1 = histsz
      · rw [if_pos ((slot_eq_zero _).mpr (by rw [hlast, Nat.mod_self])), decide_eq_true (by omega)]
      · rw [if_neg (by rw [slot_eq_zero, Nat.mod_eq_of_lt (by omega)]; omega),
          decide_eq_false (by omega), decide_eq_false (by omega)]
    · rw [if_neg hfull, if_pos rfl, decide_eq_true (by omega)]
  · intro k l hk hge
    rw [hlen] at hge
    by_cases hkn : k = n
    · subst hkn
      rw [hn, List.getElem?_concat_length, Option.some.injEq] at hk
      subst hk
      simp only [Console.saveline, h.histn, if_pos, h.histnum, strdup_served hheap, hn]
    · have hlt : k < lines.length := by
        have := (List.getElem?_eq_some_iff.mp hk).1
        rw [hlen] at this
        omega
      rw [List.getElem?_append_left hlt] at hk
      rw [hother _ fun he => hkn ((slot_eq_iff k n (by omega) (by omega)).mp he)]
      exact h.ent k l hk (by omega)
  · intro i hi
    rw [hlen] at hi
    have hi' := i.isLt
    have hne : i ≠ slot n := by
      intro he
      have := congrArg Fin.val he
      rw [slot_val, Nat.mod_eq_of_lt (by omega)] at this
      omega
    rw [hother i hne]
    exact h.fresh i (by omega)

theorem saved_saveAll (heap : Heap) (lines : List CStr)
    (hheap : ∀ l ∈ lines, heap (l.text.length + 1) = true) : Saved (saveAll heap lines) lines := by
  induction lines using List.reverseRecOn with
  | nil => exact saved_init
  | append_singleton lines line ih =>
    rw [saveAll, List.foldl_append]
    exact (ih fun l hl => hheap l (List.mem_append_left _ hl)).saveline line
      (hheap line (List.mem_append_right _ (List.mem_singleton_self line)))

/-! ### Looking up -/

/-- The scan from slot `k` to slot `n`, which `histn` is at. -/
theorem lookupFrom_range (hist : History) (num : Int32) (l : Nat → List UInt8) (n : Nat)
    (hhistn : hist.histn = slot n) : ∀ fuel k, k < n → n - k ≤ fuel → n ≤ k + histsz →
    (∀ i, k ≤ i → i < n →
      hist.ent (slot i) = { hNum := Int32.ofNat i, hLine := some (l i) }) →
    lookupFrom hist num fuel (slot k) =
      ((List.range' k (n - k)).find? fun i => decide (Int32.ofNat i = num)).map l := by
  intro fuel
  induction fuel with
  | zero => intro k hk hf; omega
  | succ fuel ih =>
    intro k hk hf hn hent
    rw [lookupFrom, hent k (le_refl k) hk, show n - k = n - (k + 1) + 1 by omega,
      List.range'_succ, List.find?_cons]
    by_cases hnum : Int32.ofNat k = num
    · rw [if_pos hnum, decide_eq_true hnum]
      rfl
    · rw [if_neg hnum, decide_eq_false hnum, slot_succ, hhistn]
      by_cases hlast : k + 1 = n
      · rw [if_pos (congrArg slot hlast), hlast, Nat.sub_self]
        rfl
      · rw [if_neg fun he => hlast ((slot_eq_iff (k + 1) n (by omega) (by omega)).mp he),
          ih (k + 1) (by omega) (by omega) (by omega) fun i hi => hent i (by omega)]

theorem lookupFrom_fresh (num : Int32) (h : ∀ i, (hist.ent i).hLine = none) : ∀ fuel i,
    lookupFrom hist num fuel i = none := by
  intro fuel
  induction fuel with
  | zero => exact fun _ => rfl
  | succ fuel ih =>
    intro i
    rw [lookupFrom, h i, ih]
    simp only [ite_self]

theorem Saved.start (h : Saved r lines) : r.hist.hist0 = slot (lines.length - histsz) := by
  rw [h.hist0]
  by_cases hn : lines.length ≤ histsz
  · rw [if_pos hn, Nat.sub_eq_zero_of_le hn]
    rfl
  · rw [if_neg hn, Fin.ext_iff, slot_val, slot_val]
    simp only [histsz] at hn ⊢
    omega

/-- `histlookup_num` looks through the numbers of the last `HISTSZ` lines, the oldest first. -/
theorem Saved.lookupNum (h : Saved r lines) (num : Int32) : histlookupNum r.hist num =
    ((List.range' (lines.length - histsz) (lines.length - (lines.length - histsz))).find? fun i =>
      decide (Int32.ofNat i = num)).map fun i => ((lines[i]?).map CStr.text).getD [] := by
  by_cases h0 : lines.length = 0
  · rw [h0]
    exact lookupFrom_fresh num (fun i => by rw [h.fresh i (by omega)]) _ _
  · rw [histlookupNum, h.start]
    refine lookupFrom_range r.hist num _ lines.length h.histn histsz (lines.length - histsz)
      (by simp only [histsz]; omega) (by omega) (by omega) fun i hi hin => ?_
    rw [h.ent i lines[i] (List.getElem?_eq_getElem hin) (by omega), List.getElem?_eq_getElem hin]
    rfl

/-- Numbers less than a round of the `int`s apart differ. -/
theorem ofNat_inj_near (i k : Nat) (h : i < k + 2 ^ 32) (h' : k < i + 2 ^ 32) :
    Int32.ofNat i = Int32.ofNat k ↔ i = k := by
  refine ⟨fun he => ?_, fun he => he ▸ rfl⟩
  have hbits : BitVec.ofNat 32 i = BitVec.ofNat 32 k := congrArg Int32.toBitVec he
  have hmod := congrArg BitVec.toNat hbits
  rw [BitVec.toNat_ofNat, BitVec.toNat_ofNat] at hmod
  omega

/-- Each of the last `HISTSZ` lines is found under its number. -/
theorem Saved.lookupNum_own (h : Saved r lines) (hk : lines.length - histsz ≤ k)
    (hlt : k < lines.length) :
    histlookupNum r.hist (Int32.ofNat k) = (lines[k]?).map CStr.text := by
  have hfind : ((List.range' (lines.length - histsz)
      (lines.length - (lines.length - histsz))).find? fun i =>
        decide (Int32.ofNat i = Int32.ofNat k)) = some k := by
    rw [List.find?_range'_eq_some]
    refine ⟨decide_eq_true rfl, List.mem_range'_1.mpr (by omega), fun j hj hjk => ?_⟩
    rw [decide_eq_false fun he => absurd ((ofNat_inj_near j k (by omega) (by
      simp only [histsz] at hj; omega)).mp he) (by omega)]
    rfl
  rw [h.lookupNum, hfind, Option.map_some, List.getElem?_eq_getElem hlt]
  rfl

/-- No line is found under a number that none of them has. -/
theorem Saved.lookupNum_other (h : Saved r lines) {num : Int32}
    (hnum : ∀ k, lines.length - histsz ≤ k → k < lines.length → Int32.ofNat k ≠ num) :
    histlookupNum r.hist num = none := by
  rw [h.lookupNum, Option.map_eq_none_iff, List.find?_eq_none]
  intro k hk
  rw [List.mem_range'_1] at hk
  rw [decide_eq_true_eq]
  exact hnum k hk.1 (by omega)

/-- The line `k` lines before the last one. -/
theorem Saved.lookupNum_back (h : Saved r lines) (hlt : k < lines.length) (hk : k < histsz) :
    histlookupNum r.hist (r.hist.histnum - Int32.ofNat (k + 1)) =
      (lines[lines.length - 1 - k]?).map CStr.text := by
  rw [h.histnum, ← Int32.ofNat_sub lines.length (k + 1) hlt,
    show lines.length - (k + 1) = lines.length - 1 - k by omega]
  exact h.lookupNum_own (by omega) (by omega)

theorem sub_slot (k a : Nat) (h : a ≤ k) : slot k - slot a = slot (k - a) := by
  rw [sub_eq_iff_eq_add, Fin.ext_iff, Fin.val_add]
  simp only [slot_val, histsz]
  omega

/-- The line that is `age` entries behind `histn`, if it starts with `str`. -/
def hit (hist : History) (str : List UInt8) (age : Nat) : Option (List UInt8) :=
  (hist.ent (hist.histn - 1 - slot age)).hLine.filter fun line =>
    decide (strncmp line str str.length = 0)

/-- The scan back goes through the ages, once round. -/
theorem lookupBack_ages (hist : History) (str : List UInt8) : ∀ fuel age, age + fuel = histsz →
    lookupBack hist str fuel (hist.histn - 1 - slot age) =
      (List.range' age fuel).findSome? (hit hist str) := by
  intro fuel
  induction fuel with
  | zero => exact fun _ _ => rfl
  | succ fuel ih =>
    intro age hage
    have hstep : (hist.histn - 1 - slot age) - 1 = hist.histn - 1 - slot (age + 1) := by
      rw [sub_sub _ (slot age), slot_succ]
    have hend : (hist.histn - 1 - slot (age + 1) = hist.histn - 1) ↔ fuel = 0 := by
      rw [sub_eq_self, slot_eq_zero]
      simp only [histsz] at hage ⊢
      omega
    have hrest : (if hist.histn - 1 - slot age - 1 = hist.histn - 1 then none
        else lookupBack hist str fuel (hist.histn - 1 - slot age - 1)) =
        (List.range' (age + 1) fuel).findSome? (hit hist str) := by
      rw [hstep]
      by_cases hf : fuel = 0
      · rw [if_pos (hend.mpr hf), hf]
        rfl
      · rw [if_neg fun he => hf (hend.mp he), ih (age + 1) (by omega)]
    rw [lookupBack, List.range'_succ, List.findSome?_cons, hrest]
    cases hline : (hist.ent (hist.histn - 1 - slot age)).hLine with
    | none => rw [hit, hline, Option.filter_none]
    | some line =>
      rw [hit, hline, Option.filter_some]
      by_cases hp : strncmp line str str.length = 0
      · simp [hp]
      · simp [hp]

theorem findSome_congr {α β : Type*} {f g : α → Option β} {l : List α} (h : ∀ x ∈ l, f x = g x) :
    l.findSome? f = l.findSome? g := by
  induction l with
  | nil => rfl
  | cons x l ih =>
    rw [List.findSome?_cons, List.findSome?_cons, h x List.mem_cons_self,
      ih fun y hy => h y (List.mem_cons_of_mem x hy)]

theorem findSome_range {α : Type*} (p : α → Bool) : ∀ (n : Nat) (l : List α),
    (List.range n).findSome? (fun i => (l[i]?).filter p) = (l.take n).find? p := by
  intro n
  induction n with
  | zero => exact fun _ => rfl
  | succ n ih =>
    intro l
    rw [List.range_succ_eq_map, List.findSome?_cons, List.findSome?_map]
    cases l with
    | nil => simp
    | cons x l =>
      have := ih l
      rw [List.take_succ_cons, List.find?_cons, List.getElem?_cons_zero, Option.filter_some]
      cases hp : p x with
      | true => rfl
      | false => simpa [Function.comp_def] using this

theorem Saved.hit_eq (h : Saved r lines) (str : List UInt8) {age : Nat} (hage : age < histsz) :
    hit r.hist str age = ((lines.reverse.map CStr.text)[age]?).filter fun line =>
      decide (strncmp line str str.length = 0) := by
  rw [hit]
  congr 1
  by_cases hlt : age < lines.length
  · have hidx : r.hist.histn - 1 - slot age = slot (lines.length - 1 - age) := by
      rw [h.histn, show lines.length = lines.length - 1 + 1 by omega, slot_pred,
        sub_slot _ _ (by omega), Nat.add_sub_cancel]
    rw [hidx, h.ent _ _ (List.getElem?_eq_getElem (by omega)) (by omega), List.getElem?_map,
      List.getElem?_reverse hlt, List.getElem?_eq_getElem (by omega)]
    rfl
  · have hidx : r.hist.histn - 1 - slot age = slot (histsz - 1 + lines.length - age) := by
      rw [h.histn, sub_sub, sub_eq_iff_eq_add, add_comm 1, slot_succ, Fin.ext_iff, Fin.val_add]
      simp only [slot_val, histsz] at hage ⊢
      omega
    rw [hidx, h.fresh _ (by rw [slot_val, Nat.mod_eq_of_lt (by omega)]; omega),
      List.getElem?_eq_none (by rw [List.length_map, List.length_reverse]; omega)]

theorem Saved.lookupStr (h : Saved r lines) (str : List UInt8) : histlookupStr r.hist str =
    (((lines.map CStr.text).reverse.take histsz).find? fun line =>
      decide (strncmp line str str.length = 0)) := by
  have hstart : r.hist.histn - 1 = r.hist.histn - 1 - slot 0 := (sub_zero _).symm
  rw [histlookupStr, hstart, lookupBack_ages r.hist str histsz 0 (Nat.zero_add _),
    ← List.range_eq_range', ← findSome_range, ← List.map_reverse]
  refine findSome_congr fun age hage => ?_
  rw [h.hit_eq str (List.mem_range.mp hage)]

/-- `strncmp` over the length of `str` asks for a prefix. -/
theorem strncmp_eq_zero_iff : ∀ str line : List UInt8, (0 : UInt8) ∉ str →
    (strncmp line str str.length = 0 ↔ str <+: line) := by
  intro str
  induction str with
  | nil => exact fun line _ => iff_of_true (by simp [strncmp]) List.nil_prefix
  | cons y str ih =>
    intro line h0
    rw [List.mem_cons, not_or] at h0
    cases line with
    | nil =>
      have hy : y.toNat ≠ 0 := fun h => h0.1 (UInt8.toNat_inj.mp h).symm
      simp [strncmp, hy]
    | cons x line =>
      rw [List.length_cons, strncmp, List.cons_prefix_cons]
      by_cases hxy : x = y
      · rw [if_pos hxy, ih line h0.2]
        exact ⟨fun h => ⟨hxy.symm, h⟩, fun h => h.2⟩
      · have hne : (x.toNat : Int) - y.toNat ≠ 0 := fun h =>
          hxy (UInt8.toNat_inj.mp (by omega))
        rw [if_neg hxy]
        exact iff_of_false hne fun h => hxy h.1.symm

/-- Up to `2 ^ 31` lines the numbers of the last `HISTSZ` lines are their places. -/
theorem Saved.lookupNum_place (h : Saved r lines) (hlen : lines.length ≤ 2 ^ 31) (num : Int32) :
    histlookupNum r.hist num =
      if max 0 ((lines.length : Int) - histsz) ≤ num.toInt ∧ num.toInt < lines.length then
        (lines[num.toInt.toNat]?).map CStr.text else none := by
  have hplace : ∀ k < lines.length, (Int32.ofNat k).toInt = k := fun k hk =>
    Int32.toInt_ofNat_of_lt (by omega)
  by_cases hin : max 0 ((lines.length : Int) - histsz) ≤ num.toInt ∧ num.toInt < lines.length
  · obtain ⟨k, hk⟩ : ∃ k : Nat, num.toInt = k := ⟨num.toInt.toNat, by omega⟩
    have hnum : num = Int32.ofNat k := by
      rw [← Int32.toInt_inj, hplace k (by omega), hk]
    rw [if_pos hin, hnum, hplace k (by omega), Int.toNat_natCast]
    exact h.lookupNum_own (by omega) (by omega)
  · rw [if_neg hin]
    refine h.lookupNum_other fun k hk hlt he => hin ?_
    rw [← he, hplace k hlt]
    omega

/-- Lines are found by their number while they are among the last `HISTSZ`, and by a prefix
among these, the last one first. A number is the place of its line as an `int`: up to `2 ^ 31`
lines the place itself. -/
theorem history_ring (heap : Heap) (lines : List CStr)
    (hheap : ∀ l ∈ lines, heap (l.text.length + 1) = true) :
    (lines.length ≤ 2 ^ 31 → ∀ num : Int32, histlookupNum (saveAll heap lines).hist num =
      if max 0 ((lines.length : Int) - histsz) ≤ num.toInt ∧ num.toInt < lines.length then
        (lines[num.toInt.toNat]?).map CStr.text else none) ∧
    (∀ k, lines.length - histsz ≤ k → k < lines.length →
      histlookupNum (saveAll heap lines).hist (Int32.ofNat k) = (lines[k]?).map CStr.text) ∧
    (∀ num : Int32, (∀ k, lines.length - histsz ≤ k → k < lines.length → Int32.ofNat k ≠ num) →
      histlookupNum (saveAll heap lines).hist num = none) ∧
    ∀ str : CStr, histlookupStr (saveAll heap lines).hist str.text =
      ((lines.map CStr.text).reverse.take histsz).find? fun line =>
        decide (str.text <+: line) := by
  have h := saved_saveAll heap lines hheap
  refine ⟨h.lookupNum_place, fun k => h.lookupNum_own, fun num => h.lookupNum_other, fun str => ?_⟩
  rw [h.lookupStr]
  congr 1
  funext line
  rw [decide_eq_decide, strncmp_eq_zero_iff _ _ str.nul]

theorem history_ring_three :
    histlookupNum (saveAll (fun _ => true) [⟨[97], by decide⟩, ⟨[98, 99], by decide⟩,
      ⟨[98], by decide⟩]).hist 1 = some [98, 99] ∧
    histlookupStr (saveAll (fun _ => true) [⟨[97], by decide⟩, ⟨[98, 99], by decide⟩,
      ⟨[98], by decide⟩]).hist [98] = some [98] :=
  have h := history_ring (fun _ => true) [⟨[97], by decide⟩, ⟨[98, 99], by decide⟩,
    ⟨[98], by decide⟩] fun _ _ => rfl
  ⟨h.1 (by decide) 1, h.2.2.2 ⟨[98], by decide⟩⟩

/-- `2 ^ 31` lines saved before this one: it is found under `INT_MIN`, which is no place. -/
theorem history_wraps :
    histlookupNum (saveAll (fun _ => true)
      (List.replicate (2 ^ 31 + 1) ⟨[97], by decide⟩)).hist (-2147483648) = some [97] ∧
    (-2147483648 : Int32).toInt < 0 := by
  have h := saved_saveAll (fun _ => true) (List.replicate (2 ^ 31 + 1) ⟨[97], by decide⟩)
    fun _ _ => rfl
  have hlen : (List.replicate (2 ^ 31 + 1) (⟨[97], by decide⟩ : CStr)).length = 2 ^ 31 + 1 :=
    List.length_replicate
  have hnum : (-2147483648 : Int32) = Int32.ofNat (2 ^ 31) := by decide
  have hlast : 2 ^ 31 < (List.replicate (2 ^ 31 + 1) (⟨[97], by decide⟩ : CStr)).length := by
    rw [hlen]
    exact Nat.lt_succ_self _
  refine ⟨?_, by decide⟩
  rw [hnum, h.lookupNum_own (by rw [hlen]; decide) hlast,
    List.getElem?_replicate_of_lt (Nat.lt_succ_self _)]
  rfl

end Console
