import CobaltRom.Pci.Scan

/-! The scan numbers the tree of buses in depth-first order. -/
namespace Pci

namespace Phys

/-- The number of buses behind the bridges of this one. -/
def count : Phys → Nat
  | nil => 0
  | echo _ _ next => next.count
  | dev _ next => next.count
  | bridge _ _ behind next => behind.count + 1 + next.count

def depth : Phys → Nat
  | nil => 0
  | echo _ _ next => next.depth
  | dev _ next => next.depth
  | bridge _ _ behind next => max (behind.depth + 1) next.depth

/-- No bus number register has been written yet. -/
def Fresh : Phys → Prop
  | nil => True
  | echo _ _ next => next.Fresh
  | dev _ next => next.Fresh
  | bridge _ regs behind next => regs = ⟨0, 0, 0⟩ ∧ behind.Fresh ∧ next.Fresh

/-- What holds of every function behind and on this bus. -/
def All (P : FnInfo → Prop) : Phys → Prop
  | nil => True
  | echo _ _ next => next.All P
  | dev fn next => P fn ∧ next.All P
  | bridge fn _ behind next => P fn ∧ behind.All P ∧ next.All P

end Phys

/-- What may answer after others on a bus: they have smaller `devfn`s, and above function 0 there
is a function 0 in the same slot, `slot`. -/
structure Follows (lo slot : Nat) (fn : FnInfo) : Prop where
  lower : lo ≤ fn.devfn
  upper : fn.devfn < 256
  vendor : ¬(fn.vendor = 0xffff ∨ fn.vendor = 0)
  first : fn.devfn % 8 ≠ 0 → fn.devfn / 8 = slot

theorem Follows.skip {lo slot : Nat} {fn : FnInfo} (h : Follows lo slot fn) (hne : fn.devfn ≠ lo) :
    Follows (lo + 1) slot fn := by
  have := h.lower
  exact ⟨by omega, h.upper, h.vendor, h.first⟩

theorem Follows.of_decide {lo slot : Nat} {fn : FnInfo} (h : (lo ≤ fn.devfn ∧ fn.devfn < 256) ∧
    ¬(fn.vendor = 0xffff ∨ fn.vendor = 0) ∧ (fn.devfn % 8 ≠ 0 → fn.devfn / 8 = slot)) :
    Follows lo slot fn := ⟨h.1.1, h.1.2, h.2.1, h.2.2⟩

def slotAfter (slot : Nat) (fn : FnInfo) : Nat := if fn.devfn % 8 = 0 then fn.devfn / 8 else slot
def multiAfter (multi : Bool) (fn : FnInfo) : Bool := if fn.devfn % 8 = 0 then fn.multi else multi

namespace Phys

/-- The functions of every bus stand in order, each in a slot with a function 0 that answers. What
answers above a function 0 is a function when that one calls itself multifunction (`multi`), and
an echo of it otherwise. -/
def Ordered : Nat → Nat → Bool → Phys → Prop
  | _, _, _, nil => True
  | lo, slot, multi, echo fn _ next =>
    Follows lo slot fn ∧ (fn.devfn % 8 ≠ 0 ∧ multi = false) ∧ Ordered (fn.devfn + 1) slot multi next
  | lo, slot, multi, dev fn next =>
    Follows lo slot fn ∧ (fn.devfn % 8 ≠ 0 → multi = true) ∧
      Ordered (fn.devfn + 1) (slotAfter slot fn) (multiAfter multi fn) next
  | lo, slot, multi, bridge fn _ behind next =>
    Follows lo slot fn ∧ (fn.devfn % 8 ≠ 0 → multi = true) ∧ Ordered 0 0 false behind ∧
      Ordered (fn.devfn + 1) (slotAfter slot fn) (multiAfter multi fn) next

/-- The registers after the scan, for a bus with number `b` when `k` was the last number given. -/
def finish (b k : Nat) : Phys → Phys
  | nil => nil
  | echo fn isBridge next => echo fn isBridge (finish b k next)
  | dev fn next => dev fn (finish b k next)
  | bridge fn _ behind next =>
    bridge fn ⟨b, k + 1, k + 1 + behind.count⟩ (finish (k + 1) (k + 1) behind)
      (finish b (k + 1 + behind.count) next)

/-- Path, number and subordinate number of the buses behind, in depth-first order. -/
def keys (path : Path) (k : Nat) : Phys → List (Path × Nat × Nat)
  | nil => []
  | echo _ _ next => keys path k next
  | dev _ next => keys path k next
  | bridge fn _ behind next =>
    (path ++ [fn.devfn], k + 1, k + 1 + behind.count) ::
      (keys (path ++ [fn.devfn]) (k + 1) behind ++ keys path (k + 1 + behind.count) next)

/-- The functions on and behind this bus with the number of their bus. -/
def devs (path : Path) (b k : Nat) : Phys → List Dev
  | nil => []
  | echo _ _ next => devs path b k next
  | dev fn next => ⟨path, b, fn.devfn⟩ :: devs path b k next
  | bridge fn _ behind next =>
    ⟨path, b, fn.devfn⟩ :: (devs (path ++ [fn.devfn]) (k + 1) (k + 1) behind ++
      devs path b (k + 1 + behind.count) next)

variable {n d lo slot : Nat} {multi : Bool} {p q : Phys}

theorem count_le (p : Phys) : p.depth ≤ p.count := by
  induction p with
  | nil => exact le_rfl
  | echo fn isBridge next ih => exact ih
  | dev fn next ih => exact ih
  | bridge fn regs behind next hb hn =>
    simp only [depth, count]
    omega

theorem Fresh.silent (h : p.Fresh) (hn : 0 < n) : p.silent n := by
  induction p with
  | nil => trivial
  | echo fn isBridge next ih => exact ih h
  | dev fn next ih => exact ih h
  | bridge fn regs behind next _ ih =>
    obtain ⟨rfl, -, hnext⟩ := h
    exact ⟨fun hf => by simp [Regs.forwards] at hf; omega, ih hnext⟩

theorem Ordered.find_none (h : p.Ordered lo slot multi) (hd : d < lo) : p.find d = none := by
  induction p generalizing lo slot multi with
  | nil => rfl
  | echo fn isBridge next ih =>
    have := h.1.lower
    rw [find, if_neg (by omega), ih h.2.2 (by omega)]
  | dev fn next ih =>
    have := h.1.lower
    rw [find, if_neg (by omega), ih h.2.2 (by omega)]
  | bridge fn regs behind next _ ih =>
    have := h.1.lower
    rw [find, if_neg (by omega), ih h.2.2.2 (by omega)]

/-- Without a function at `lo`, the others come later. -/
theorem Ordered.skip (h : p.Ordered lo slot multi) (hf : p.find lo = none) :
    p.Ordered (lo + 1) slot multi := by
  cases p with
  | nil => trivial
  | echo fn isBridge next => exact ⟨h.1.skip fun he => by simp [find, he] at hf, h.2⟩
  | dev fn next => exact ⟨h.1.skip fun he => by simp [find, he] at hf, h.2⟩
  | bridge fn regs behind next => exact ⟨h.1.skip fun he => by simp [find, he] at hf, h.2⟩

/-- A function at `lo` is the first one. -/
theorem Ordered.head (h : p.Ordered lo slot multi) {fn : FnInfo} {isBridge : Bool}
    (hf : p.find lo = some (fn, isBridge)) :
    fn.devfn = lo ∧ ((∃ next, p = echo fn isBridge next) ∨
      (∃ next, p = dev fn next ∧ isBridge = false) ∨
      ∃ regs behind next, p = bridge fn regs behind next ∧ isBridge = true) := by
  cases p with
  | nil => cases hf
  | echo fn₁ b next =>
    by_cases hd : fn₁.devfn = lo
    · simp only [find, hd, if_true, Option.some.injEq, Prod.mk.injEq] at hf
      obtain ⟨rfl, rfl⟩ := hf
      exact ⟨hd, Or.inl ⟨next, rfl⟩⟩
    · have := h.1.lower
      rw [find, if_neg hd, h.2.2.find_none (by omega)] at hf
      cases hf
  | dev fn₁ next =>
    by_cases hd : fn₁.devfn = lo
    · simp only [find, hd, if_true, Option.some.injEq, Prod.mk.injEq] at hf
      obtain ⟨rfl, rfl⟩ := hf
      exact ⟨hd, Or.inr (Or.inl ⟨next, rfl, rfl⟩)⟩
    · have := h.1.lower
      rw [find, if_neg hd, h.2.2.find_none (by omega)] at hf
      cases hf
  | bridge fn₁ regs behind next =>
    by_cases hd : fn₁.devfn = lo
    · simp only [find, hd, if_true, Option.some.injEq, Prod.mk.injEq] at hf
      obtain ⟨rfl, rfl⟩ := hf
      exact ⟨hd, Or.inr (Or.inr ⟨regs, behind, next, rfl, rfl⟩)⟩
    · have := h.1.lower
      rw [find, if_neg hd, h.2.2.2.find_none (by omega)] at hf
      cases hf

end Phys

/-- A bus in its surroundings: the machine as a function of what is on that bus. Cycles for its
number reach it alone, and those for larger numbers are left to its bridges. -/
structure Focus where
  put : Phys → Hw
  num : Nat
  path : Path
  here : ∀ q, access num (put q) = [(path, q)]
  below : ∀ n q, num < n → n ≤ 255 →
    access n (put q) = (q.reach n).map fun r => (path ++ r.1, r.2)
  hereUpd : ∀ g q, atBus num g (put q) = put (g q)
  belowUpd : ∀ n g q, num < n → n ≤ 255 → atBus n g (put q) = put (q.route n g)

/-- The machine as a function of what is behind a bridge that forwards everything from `c` on. -/
def Focus.behind (F : Focus) (done next : Phys) (fn : FnInfo) (c : Nat) (r : Phys) : Hw :=
  F.put (done.append (.bridge fn ⟨F.num, c, 255⟩ r next))

section Behind

variable (F : Focus) {done next : Phys} (fn : FnInfo) {c : Nat}

theorem Focus.behind_here (hc : F.num < c) (hc' : c ≤ 255) (hd : done.silent c)
    (hn : next.silent c) (q : Phys) :
    access c (F.behind done next fn c q) = [(F.path ++ [fn.devfn], q)] := by
  rw [behind, F.below c _ hc hc', Phys.reach_append, Phys.reach_silent hd, Phys.reach,
    if_pos ⟨le_rfl, hc'⟩, if_pos rfl, Phys.reach_silent hn]
  rfl

theorem Focus.behind_below {n : Nat} (hc : F.num < c) (hd : done.silent n)
    (hx : next.silent n) (hn : c < n) (hn' : n ≤ 255) (q : Phys) :
    access n (F.behind done next fn c q) =
      (q.reach n).map fun r => (F.path ++ [fn.devfn] ++ r.1, r.2) := by
  rw [behind, F.below n _ (by omega) hn', Phys.reach_append, Phys.reach_silent hd, Phys.reach,
    if_pos ⟨by simp only; omega, hn'⟩, if_neg (by simp only; omega), Phys.reach_silent hx]
  simp

theorem Focus.behind_hereUpd (hc : F.num < c) (hc' : c ≤ 255) (hd : done.silent c)
    (hn : next.silent c) (g : Phys → Phys) (q : Phys) :
    atBus c g (F.behind done next fn c q) = F.behind done next fn c (g q) := by
  rw [behind, F.belowUpd c g _ hc hc', Phys.route_append, Phys.route_silent hd, Phys.route,
    if_pos ⟨le_rfl, hc'⟩, if_pos rfl, Phys.route_silent hn, behind]

theorem Focus.behind_belowUpd {n : Nat} (hc : F.num < c) (hd : done.silent n)
    (hx : next.silent n) (hn : c < n) (hn' : n ≤ 255) (g : Phys → Phys) (q : Phys) :
    atBus n g (F.behind done next fn c q) = F.behind done next fn c (q.route n g) := by
  rw [behind, F.belowUpd n g _ (by omega) hn', Phys.route_append, Phys.route_silent hd,
    Phys.route, if_pos ⟨by simp only; omega, hn'⟩, if_neg (by simp only; omega),
    Phys.route_silent hx, behind]

end Behind

/-- The bus behind a bridge that forwards everything from its number on. -/
def Focus.child (F : Focus) (done next : Phys) (fn : FnInfo) (c : Nat) (hc : F.num < c)
    (hc' : c ≤ 255) (hs : ∀ n, c ≤ n → n ≤ 255 → done.silent n ∧ next.silent n) : Focus where
  put := F.behind done next fn c
  num := c
  path := F.path ++ [fn.devfn]
  here := F.behind_here fn hc hc' (hs c le_rfl hc').1 (hs c le_rfl hc').2
  below n q hn hn' := F.behind_below fn hc (hs n hn.le hn').1 (hs n hn.le hn').2 hn hn' q
  hereUpd := F.behind_hereUpd fn hc hc' (hs c le_rfl hc').1 (hs c le_rfl hc').2
  belowUpd n g q hn hn' := F.behind_belowUpd fn hc (hs n hn.le hn').1 (hs n hn.le hn').2 hn hn' g q

def Bus.key (b : Bus) : Path × Nat × Nat := (b.path, b.busnum, b.sub)

/-- The cycles made reached one bus each, and it has the number they were for. -/
def Logged (S : List (Path × Nat)) (st st' : St) : Prop :=
  ∃ l, st'.log = st.log ++ l ∧ ∀ a, a ∈ l → ∃ path, a.2 = [path] ∧ (path, a.1) ∈ S

variable {F : Focus} {S T : List (Path × Nat)} {bus bus' : Bus} {st st' st'' : St}
  {done rest p q : Phys} {fn : FnInfo} {k n d : Nat}

theorem Logged.refl (S : List (Path × Nat)) (st : St) : Logged S st st := ⟨[], by simp, by simp⟩

theorem Logged.trans (h : Logged S st st') (h' : Logged S st' st'') : Logged S st st'' := by
  obtain ⟨l, hl, hs⟩ := h
  obtain ⟨l', hl', hs'⟩ := h'
  refine ⟨l ++ l', by rw [hl', hl, List.append_assoc], fun a ha => ?_⟩
  rcases List.mem_append.mp ha with ha | ha
  · exact hs a ha
  · exact hs' a ha

theorem Logged.mono (h : Logged S st st') (hST : ∀ a, a ∈ S → a ∈ T) : Logged T st st' := by
  obtain ⟨l, hl, hs⟩ := h
  refine ⟨l, hl, fun a ha => ?_⟩
  obtain ⟨path, hp, hm⟩ := hs a ha
  exact ⟨path, hp, hST _ hm⟩

theorem logged_touch {path : Path} (st : St) (hacc : (access n st.hw).map Prod.fst = [path])
    (hS : (path, n) ∈ S) : Logged S st (touch n st) := by
  refine ⟨[(n, [path])], by rw [touch, hacc], ?_⟩
  intro a ha
  obtain rfl := List.mem_singleton.mp ha
  exact ⟨path, rfl, hS⟩

theorem Focus.logged_touch (F : Focus) (st : St) (hst : st.hw = F.put q)
    (hS : (F.path, F.num) ∈ S) : Logged S st (touch F.num st) :=
  Pci.logged_touch st (by rw [hst, F.here]; rfl) hS

theorem Focus.logged_writeRegs (F : Focus) (st : St) (hst : st.hw = F.put q)
    (hS : (F.path, F.num) ∈ S)
    (d : Nat) (f : Regs → Regs) :
    Logged S st (writeRegs F.num d f st) ∧
      (writeRegs F.num d f st).hw = F.put (q.setRegs d f) := by
  refine ⟨F.logged_touch st hst hS, ?_⟩
  have h : (writeRegs F.num d f st).hw = atBus F.num (Phys.setRegs d f) st.hw := rfl
  rw [h, hst, F.hereUpd]

theorem Focus.readFn_eq (F : Focus) (d : Nat) (q : Phys) :
    readFn F.num d (F.put q) = match q.find d with
      | none => none
      | some r => if r.1.vendor = 0xffff ∨ r.1.vendor = 0 then none else some r := by
  rw [readFn, F.here]
  cases h : q.find d <;> simp [h]

/-- What the scan of the rest of a bus leaves: kids, devices and registers as numbered. -/
structure Scanned (F : Focus) (S : List (Path × Nat)) (k : Nat) (done rest : Phys)
    (bus bus' : Bus) (kids : Forest Bus) (st st' : St) : Prop where
  busnum : bus'.busnum = bus.busnum
  path : bus'.path = bus.path
  pri : bus'.pri = bus.pri
  bridged : bus'.bridged = bus.bridged
  lastKid : bus'.lastKid = k + rest.count
  kids : kids.toList.map Bus.key = rest.keys F.path k
  hw : st'.hw = F.put (done.append (rest.finish F.num k))
  devices : st'.devices = st.devices ++ rest.devs F.path F.num k
  peers : st'.peers = st.peers
  log : Logged (S ++ (F.path, F.num) :: (rest.keys F.path k).map fun r => (r.1, r.2.1)) st st'

/-- What a scan has to do for every bus less than `D` bridges deep. -/
def ScanOk (scan : Bus → St → Option (Bus × Forest Bus × St)) (D : Nat) : Prop :=
  ∀ (F : Focus) (S : List (Path × Nat)) (p : Phys) (bus : Bus) (st : St), p.depth < D →
    p.Ordered 0 0 false → p.Fresh → p.All (fun fn => isCnb30le fn = false) →
    bus.busnum = F.num → bus.path = F.path → bus.lastKid = F.num → F.num + p.count ≤ 255 →
    st.hw = F.put p →
    (bus.bridged = true → ∃ path, (path, bus.pri) ∈ S ∧
      ∀ q, (access bus.pri (F.put q)).map Prod.fst = [path]) →
    ∃ bus' kids st', scan bus st = some (bus', kids, st') ∧
      Scanned F S F.num .nil p bus bus' kids st st'

theorem setRegs_at {regs : Regs} {behind next : Phys} (f : Regs → Regs)
    (hd : done.find fn.devfn = none) (hn : next.find fn.devfn = none) :
    (done.append (.bridge fn regs behind next)).setRegs fn.devfn f =
      done.append (.bridge fn (f regs) behind next) := by
  rw [Phys.setRegs_append hd, Phys.setRegs, if_pos rfl, Phys.setRegs_none hn]

/-- A bridge is numbered, its bus is scanned and its registers are closed again. -/
theorem pciBridgeInit_spec {scan : Bus → St → Option (Bus × Forest Bus × St)} {D : Nat}
    {behind next : Phys} (bus : Bus) (st : St) (hscan : ScanOk scan D) (hD : behind.depth < D)
    (hord : behind.Ordered 0 0 false) (hfresh : behind.Fresh)
    (hall : behind.All fun fn => isCnb30le fn = false) (hnext : next.Fresh)
    (hnum : bus.busnum = F.num) (hpath : bus.path = F.path) (hk : bus.lastKid = k)
    (hnk : F.num ≤ k) (hsz : k + 1 + behind.count ≤ 255)
    (hst : st.hw = F.put (done.append (.bridge fn ⟨0, 0, 0⟩ behind next)))
    (hdone : done.find fn.devfn = none) (hfind : next.find fn.devfn = none)
    (hsil : ∀ n, k < n → n ≤ 255 → done.silent n) :
    ∃ new kids st', pciBridgeInit scan bus fn st =
        some ({ bus with lastKid := k + 1 + behind.count }, new, kids, st') ∧
      new.key = (F.path ++ [fn.devfn], k + 1, k + 1 + behind.count) ∧
      kids.toList.map Bus.key = behind.keys (F.path ++ [fn.devfn]) (k + 1) ∧
      st'.hw = F.put (done.append (.bridge fn ⟨F.num, k + 1, k + 1 + behind.count⟩
        (behind.finish (k + 1) (k + 1)) next)) ∧
      st'.devices = st.devices ++ behind.devs (F.path ++ [fn.devfn]) (k + 1) (k + 1) ∧
      st'.peers = st.peers ∧
      Logged ((F.path, F.num) :: (F.path ++ [fn.devfn], k + 1) ::
        (behind.keys (F.path ++ [fn.devfn]) (k + 1)).map fun r => (r.1, r.2.1)) st st' := by
  have hmod : (k + 1) % 256 = k + 1 := Nat.mod_eq_of_lt (by omega)
  have hs : ∀ n, k + 1 ≤ n → n ≤ 255 → done.silent n ∧ next.silent n := fun n h₁ h₂ =>
    ⟨hsil n (by omega) h₂, hnext.silent (by omega)⟩
  let C := F.child done next fn (k + 1) (by omega) (by omega) hs
  let S : List (Path × Nat) := (F.path, F.num) :: (F.path ++ [fn.devfn], k + 1) ::
    (behind.keys (F.path ++ [fn.devfn]) (k + 1)).map fun r => (r.1, r.2.1)
  have hS : (F.path, F.num) ∈ S := by simp [S]
  -- the bridge is opened for all numbers from its own on
  have h₁ : Logged S st (touch F.num st) := F.logged_touch _ hst hS
  have h₂ : Logged S (touch F.num st) (touch F.num (touch F.num st)) := F.logged_touch _ hst hS
  obtain ⟨h₃, hw₃⟩ := F.logged_writeRegs (touch F.num (touch F.num st)) hst hS fn.devfn
    (fun r => { r with pri := F.num })
  rw [setRegs_at _ hdone hfind] at hw₃
  obtain ⟨h₄, hw₄⟩ := F.logged_writeRegs _ hw₃ hS fn.devfn (fun r => { r with sec := k + 1 })
  rw [setRegs_at _ hdone hfind] at hw₄
  obtain ⟨h₅, hw₅⟩ := F.logged_writeRegs _ hw₄ hS fn.devfn (fun r => { r with sub := 0xff })
  rw [setRegs_at _ hdone hfind] at hw₅
  have hlog₅ := (((h₁.trans h₂).trans h₃).trans h₄).trans h₅
  generalize hst₅ : writeRegs F.num fn.devfn (fun r => { r with sub := 0xff })
    (writeRegs F.num fn.devfn (fun r => { r with sec := k + 1 })
      (writeRegs F.num fn.devfn (fun r => { r with pri := F.num })
        (touch F.num (touch F.num st)))) = st₅ at *
  have hdev₅ : st₅.devices = st.devices := by rw [← hst₅]; rfl
  have hpeer₅ : st₅.peers = st.peers := by rw [← hst₅]; rfl
  obtain ⟨new, kids, st₆, hrun, hsc⟩ := hscan C [(F.path, F.num)] behind
    { busnum := k + 1, pri := F.num, sub := 0xff, lastKid := k + 1, fbbe := fn.secFbbe,
      bridged := true, path := F.path ++ [fn.devfn], devices := [] } st₅ hD hord hfresh hall
    rfl rfl rfl hsz hw₅ (fun _ => ⟨F.path, by simp, fun q => by
      have := F.here (done.append (.bridge fn ⟨F.num, k + 1, 255⟩ q next))
      exact congrArg (List.map Prod.fst) this⟩)
  have hw₆ : st₆.hw = F.put (done.append (.bridge fn ⟨F.num, k + 1, 255⟩
      (behind.finish (k + 1) (k + 1)) next)) := hsc.hw
  have hlast : new.lastKid = k + 1 + behind.count := hsc.lastKid
  have hlog₆ : Logged S st₅ st₆ := hsc.log.mono (by simp [S, C, Focus.child])
  obtain ⟨h₇, hw₇⟩ := F.logged_writeRegs _ hw₆ hS fn.devfn
    (fun r => { r with sub := k + 1 + behind.count })
  rw [setRegs_at _ hdone hfind] at hw₇
  refine ⟨{ new with sub := k + 1 + behind.count }, kids,
    writeRegs F.num fn.devfn (fun r => { r with sub := k + 1 + behind.count }) st₆,
    ?_, ?_, hsc.kids,
    hw₇, ?_, ?_, (hlog₅.trans hlog₆).trans h₇⟩
  · simp only [pciBridgeInit, hnum, hpath, hk, hmod, hst₅, hrun, Option.map_some, hlast]
  · simp only [Bus.key, hsc.path, hsc.busnum]
  · have :
      (writeRegs F.num fn.devfn (fun r => { r with sub := k + 1 + behind.count }) st₆).devices =
      st₆.devices := rfl
    rw [this, hsc.devices, hdev₅]
    rfl
  · have : (writeRegs F.num fn.devfn (fun r => { r with sub := k + 1 + behind.count }) st₆).peers =
      st₆.peers := rfl
    rw [this, hsc.peers, hpeer₅]

theorem Scanned.mono {kids : Forest Bus} (h : Scanned F S k done rest bus bus' kids st st')
    (hST : ∀ a, a ∈ S → a ∈ T) : Scanned F T k done rest bus bus' kids st st' := by
  refine { h with log := h.log.mono ?_ }
  intro a ha
  rcases List.mem_append.mp ha with ha | ha
  · exact List.mem_append_left _ (hST a ha)
  · exact List.mem_append_right _ ha

theorem find_snoc_echo {b : Bool} (h : ∀ e, d ≤ e → done.find e = none) (hd : fn.devfn = d)
    (e : Nat) (he : d + 1 ≤ e) : (done.append (.echo fn b .nil)).find e = none := by
  rw [Phys.find_append (h e (by omega)), Phys.find, if_neg (by omega), Phys.find]

theorem find_snoc_dev (h : ∀ e, d ≤ e → done.find e = none) (hd : fn.devfn = d) (e : Nat)
    (he : d + 1 ≤ e) : (done.append (.dev fn .nil)).find e = none := by
  rw [Phys.find_append (h e (by omega)), Phys.find, if_neg (by omega), Phys.find]

theorem find_snoc_bridge {regs : Regs} {behind : Phys} (h : ∀ e, d ≤ e → done.find e = none)
    (hd : fn.devfn = d) (e : Nat) (he : d + 1 ≤ e) :
    (done.append (.bridge fn regs behind .nil)).find e = none := by
  rw [Phys.find_append (h e (by omega)), Phys.find, if_neg (by omega), Phys.find]

/-- A function is taken into the device lists. -/
def St.found (n : Nat) (path : Path) (d : Nat) (st : St) : St :=
  touch n { touch n st with devices := st.devices ++ [⟨path, n, d⟩] }

def Bus.found (bus : Bus) (fn : FnInfo) : Bus :=
  { bus with fbbe := fn.fbbe && bus.fbbe, devices := bus.devices ++ [fn.devfn] }

section

variable {scan : Bus → St → Option (Bus × Forest Bus × St)} {l : List Nat} {mf : Bool}
  {path : Path} (hnum : bus.busnum = n) (hpath : bus.path = path) (hdev : fn.devfn = d)
  (hskip : ¬(!mf && decide (d % 8 ≠ 0)) = true)

include hnum hpath hdev hskip

theorem scanFns_found (hread : readFn n d st.hw = some (fn, false)) :
    scanFns scan (d :: l) mf bus st =
      (pciFixupPost scan (bus.found fn) fn
        (touch n (pciFixupPre (bus.found fn) fn (st.found n path d)))).bind
        fun r => scanFns scan l (multiAfter mf fn) r.1 r.2 := by
  subst hnum hpath hdev
  rw [scanFns, if_neg hskip]
  simp only [hread, Bool.false_eq_true, if_false]
  rfl

theorem scanFns_dev (hfix : isCnb30le fn = false) (hread : readFn n d st.hw = some (fn, false)) :
    scanFns scan (d :: l) mf bus st =
      scanFns scan l (multiAfter mf fn) (bus.found fn) (touch n (st.found n path d)) := by
  rw [scanFns_found hnum hpath hdev hskip hread]
  simp only [pciFixupPre, pciFixupPost, hfix, Bool.false_eq_true, if_false, Option.bind_some]

theorem scanFns_bridge (hfix : isCnb30le fn = false) (hread : readFn n d st.hw = some (fn, true))
    {k : Nat} {new : Bus}
    {kids : Forest Bus} (hinit : pciBridgeInit scan (bus.found fn) fn (st.found n path d) =
      some ({ bus.found fn with lastKid := k }, new, kids, st')) :
    scanFns scan (d :: l) mf bus st =
      (scanFns scan l (multiAfter mf fn) { bus.found fn with lastKid := k } (touch n st')).map
        fun r => (r.1, .node new kids r.2.1, r.2.2) := by
  subst hnum hpath hdev
  rw [scanFns, if_neg hskip]
  simp only [Bus.found, St.found] at hinit
  simp only [hread, pciFixupPre, pciFixupPost, hfix, Bool.false_eq_true, if_false, if_true,
    Option.bind_some]
  erw [hinit]
  rfl

end

/-- The loop over the functions of a bus, from `d` on, with `done` scanned and `rest` to come. -/
theorem scanFns_spec {scan : Bus → St → Option (Bus × Forest Bus × St)} {D : Nat}
    (hscan : ScanOk scan D) (F : Focus) (m : Nat) :
    ∀ (d slot : Nat) (mf : Bool) (k : Nat) (done rest : Phys) (bus : Bus) (st : St),
      d + m = 256 → rest.depth ≤ D → rest.Ordered d slot mf → rest.Fresh →
      rest.All (fun fn => isCnb30le fn = false) →
      bus.busnum = F.num → bus.path = F.path → bus.lastKid = k → F.num ≤ k →
      k + rest.count ≤ 255 → st.hw = F.put (done.append rest) →
      (∀ e, d ≤ e → done.find e = none) → (∀ n, k < n → n ≤ 255 → done.silent n) →
      ∃ bus' kids st', scanFns scan (List.range' d m) mf bus st = some (bus', kids, st') ∧
        Scanned F [] k done rest bus bus' kids st st' := by
  induction m with
  | zero =>
    intro d slot mf k done rest bus st hd _ hord _ _ _ _ hk _ _ hst _ _
    have hnil : rest = .nil := by
      cases rest with
      | nil => rfl
      | echo fn isBridge next =>
        have h₁ := hord.1.lower
        have h₂ := hord.1.upper
        omega
      | dev fn next =>
        have h₁ := hord.1.lower
        have h₂ := hord.1.upper
        omega
      | bridge fn regs behind next =>
        have h₁ := hord.1.lower
        have h₂ := hord.1.upper
        omega
    subst hnil
    exact ⟨bus, .nil, st, rfl, rfl, rfl, rfl, rfl, hk, rfl, hst, (List.append_nil _).symm, rfl,
      Logged.refl _ _⟩
  | succ m ih =>
    intro d slot mf k done rest bus st hd hD hord hfresh hall hnum hpath hk hnk hsz hst hdone hsil
    have hS : ∀ l : List (Path × Nat), (F.path, F.num) ∈ [] ++ (F.path, F.num) :: l := by simp
    have hread := F.readFn_eq d (done.append rest)
    rw [Phys.find_append (hdone d le_rfl)] at hread
    rw [List.range'_succ]
    cases hfind : rest.find d with
    | none =>
      have ih' := ih (d + 1) slot mf k done rest bus
      by_cases hskip : (!mf && decide (d % 8 ≠ 0)) = true
      · obtain ⟨bus', kids, st', hrun, hsc⟩ := ih' st (by omega) hD (hord.skip hfind) hfresh hall
          hnum hpath hk hnk hsz hst (fun e he => hdone e (by omega)) hsil
        exact ⟨bus', kids, st', by rw [scanFns, if_pos hskip, hrun], hsc⟩
      · obtain ⟨bus', kids, st', hrun, hsc⟩ := ih' (touch F.num st) (by omega) hD
          (hord.skip hfind) hfresh hall hnum hpath hk hnk hsz hst
          (fun e he => hdone e (by omega)) hsil
        refine ⟨bus', kids, st', ?_,
          { hsc with log := (F.logged_touch _ hst (hS _)).trans hsc.log }⟩
        rw [hfind] at hread
        rw [scanFns, if_neg hskip]
        simp only [hnum, hst, hread, hrun]
    | some r =>
      obtain ⟨fn, isBridge⟩ := r
      obtain ⟨hdev, hhead⟩ := hord.head hfind
      have hskip : (d % 8 ≠ 0 → mf = true) → ¬(!mf && decide (d % 8 ≠ 0)) = true := by
        intro hmf h
        simp only [Bool.and_eq_true, Bool.not_eq_true', decide_eq_true_eq] at h
        rw [hmf h.2] at h
        exact Bool.noConfusion h.1
      have hread' : Follows d slot fn → readFn F.num d st.hw = some (fn, isBridge) := by
        intro hfol
        rw [hst, hread, hfind]
        exact if_neg hfol.vendor
      have hlog₁ : ∀ l, Logged ([] ++ (F.path, F.num) :: l) st (st.found F.num F.path d) := fun l =>
        (F.logged_touch _ hst (hS l)).trans
          (F.logged_touch { touch F.num st with
            devices := st.devices ++ [⟨F.path, F.num, d⟩] } hst (hS l))
      rcases hhead with ⟨next, rfl⟩ | ⟨next, rfl, rfl⟩ | ⟨regs, behind, next, rfl, rfl⟩
      · -- an echo of a function 0 that has no others is passed over
        obtain ⟨-, ⟨hne, rfl⟩, hnord⟩ := hord
        obtain ⟨bus', kids, st', hrun, hsc⟩ := ih (d + 1) slot false k
          (done.append (.echo fn isBridge .nil)) next bus st (by omega) hD
          (hdev ▸ hnord) hfresh hall
          hnum hpath hk hnk hsz (by rw [Phys.append_assoc]; exact hst) (find_snoc_echo hdone hdev)
          (fun n h₁ h₂ => Phys.silent_append.mpr ⟨hsil n h₁ h₂, trivial⟩)
        refine ⟨bus', kids, st', ?_, { hsc with hw := ?_ }⟩
        · rw [scanFns, if_pos (by simpa [hdev] using hne), hrun]
        · rw [hsc.hw, Phys.append_assoc]
          rfl
      · obtain ⟨bus', kids, st', hrun, hsc⟩ := ih (d + 1) (slotAfter slot fn) (multiAfter mf fn) k
          (done.append (.dev fn .nil)) next (bus.found fn) (touch F.num (st.found F.num F.path d))
          (by omega) hD (hdev ▸ hord.2.2) hfresh hall.2 hnum hpath hk hnk hsz
          (by rw [Phys.append_assoc]; exact hst) (find_snoc_dev hdone hdev)
          (fun n h₁ h₂ => Phys.silent_append.mpr ⟨hsil n h₁ h₂, trivial⟩)
        refine ⟨bus', kids, st', ?_, hsc.busnum, hsc.path, hsc.pri, hsc.bridged, hsc.lastKid,
          hsc.kids, ?_, ?_, hsc.peers,
          (hlog₁ _).trans ((F.logged_touch (st.found F.num F.path d) hst (hS _)).trans hsc.log)⟩
        · rw [scanFns_dev hnum hpath hdev (hskip (hdev ▸ hord.2.1)) hall.1 (hread' hord.1), hrun]
        · rw [hsc.hw, Phys.append_assoc]
          rfl
        · rw [hsc.devices, Phys.devs, hdev]
          simp [touch, St.found]
      · obtain ⟨hregs, hbfresh, hnfresh⟩ := hfresh
        obtain ⟨hfix, hball, hnall⟩ := hall
        obtain ⟨hfol, hmf, hbord, hnord⟩ := hord
        subst hregs
        simp only [Phys.count, Phys.depth] at hsz hD
        obtain ⟨new, bkids, st₂, hinit, hkey, hbkids, hw₂, hdev₂, hpeer₂, hlog₂⟩ :=
          pciBridgeInit_spec (bus.found fn) (st.found F.num F.path d) hscan (by omega) hbord
            hbfresh hball hnfresh hnum hpath hk hnk (by omega) hst (hdone _ (by omega))
            (hnord.find_none (by omega)) hsil
        have hassoc : ∀ regs b, (done.append (.bridge fn regs b .nil)).append next =
            done.append (.bridge fn regs b next) := fun regs b => Phys.append_assoc _ _ _
        obtain ⟨bus', kids, st', hrun, hsc⟩ := ih (d + 1) (slotAfter slot fn) (multiAfter mf fn)
          (k + 1 + behind.count) (done.append (.bridge fn ⟨F.num, k + 1, k + 1 + behind.count⟩
            (behind.finish (k + 1) (k + 1)) .nil)) next
          { bus.found fn with lastKid := k + 1 + behind.count } (touch F.num st₂)
          (by omega) (by omega) (hdev ▸ hnord) hnfresh hnall hnum hpath rfl (by omega) (by omega)
          (by rw [hassoc]; exact hw₂) (find_snoc_bridge hdone hdev)
          (fun n h₁ h₂ => Phys.silent_append.mpr ⟨hsil n (by omega) h₂,
            fun hf => by have := hf.2; simp only at this; omega, trivial⟩)
        refine ⟨bus', .node new bkids kids, st', ?_, hsc.busnum, hsc.path, hsc.pri, hsc.bridged,
          ?_, ?_, ?_, ?_, ?_, ?_⟩
        · rw [scanFns_bridge hnum hpath hdev (hskip (hdev ▸ hmf)) hfix (hread' hfol) hinit, hrun]
          rfl
        · rw [hsc.lastKid, Phys.count]
          omega
        · simp only [Forest.toList, List.map_cons, List.map_append, hkey, hbkids,
            hsc.kids, Phys.keys]
        · rw [hsc.hw, Phys.append_assoc]
          rfl
        · have : (touch F.num st₂).devices = st₂.devices := rfl
          rw [hsc.devices, this, hdev₂, Phys.devs, hdev]
          simp [touch, St.found]
        · rw [hsc.peers]
          exact hpeer₂
        · refine (hlog₁ _).trans ((hlog₂.mono ?_).trans
            ((F.logged_touch st₂ hw₂ (hS _)).trans (hsc.log.mono ?_)))
          · simp only [Phys.keys, List.map_cons, List.map_append, List.nil_append, List.mem_cons,
              List.mem_append]
            tauto
          · simp only [Phys.keys, List.map_cons, List.map_append, List.nil_append, List.mem_cons,
              List.mem_append]
            tauto

theorem touches_spec (F : Focus) (hS : (F.path, F.num) ∈ S) (l : List Nat) (st : St)
    (hst : st.hw = F.put q) :
    Logged S st (l.foldl (fun st _ => touch F.num st) st) ∧
      (l.foldl (fun st _ => touch F.num st) st).hw = st.hw ∧
      (l.foldl (fun st _ => touch F.num st) st).devices = st.devices ∧
      (l.foldl (fun st _ => touch F.num st) st).peers = st.peers := by
  induction l generalizing st with
  | nil => exact ⟨Logged.refl _ _, rfl, rfl, rfl⟩
  | cons x l ih =>
    obtain ⟨hlog, hhw, hdev, hpeer⟩ := ih (touch F.num st) hst
    exact ⟨(F.logged_touch _ hst hS).trans hlog, hhw, hdev, hpeer⟩

/-- Fast back-to-back transactions are a matter of this bus and the one it hangs on. -/
theorem enableFbbe_spec (F : Focus) (hS : (F.path, F.num) ∈ S) (hst : st.hw = F.put q)
    (hnum : bus.busnum = F.num) (hpri : bus.bridged = true → ∃ path, (path, bus.pri) ∈ S ∧
      ∀ q, (access bus.pri (F.put q)).map Prod.fst = [path]) :
    Logged S st (enableFbbe bus st) ∧ (enableFbbe bus st).hw = st.hw ∧
      (enableFbbe bus st).devices = st.devices ∧ (enableFbbe bus st).peers = st.peers := by
  obtain ⟨hlog, hhw, hdev, hpeer⟩ := touches_spec F hS bus.devices st hst
  by_cases hf : bus.fbbe = true
  · rw [enableFbbe, if_pos hf, hnum]
    by_cases hb : bus.bridged = true
    · obtain ⟨path, hmem, hacc⟩ := hpri hb
      simp only [if_pos hb]
      exact ⟨hlog.trans (logged_touch _ (by rw [hhw, hst, hacc]) hmem), hhw, hdev, hpeer⟩
    · simp only [if_neg hb]
      exact ⟨hlog, hhw, hdev, hpeer⟩
  · rw [enableFbbe, if_neg hf]
    exact ⟨Logged.refl _ _, rfl, rfl, rfl⟩

/-- The scan of a bus, with enough fuel for the bridges behind it. -/
theorem pciBusScan_spec (fuel : Nat) : ScanOk (pciBusScan fuel) fuel := by
  induction fuel with
  | zero => exact fun _ _ _ _ _ h => absurd h (Nat.not_lt_zero _)
  | succ fuel ih =>
    intro F S p bus st hD hord hfresh hall hnum hpath hk hsz hst hpri
    obtain ⟨bus', kids, st', hrun, hsc⟩ := scanFns_spec ih F 256 0 0 false F.num .nil p bus st rfl
      (by omega) hord hfresh hall hnum hpath hk le_rfl hsz hst (fun _ _ => rfl)
      (fun _ _ _ => trivial)
    obtain ⟨hlog, hhw, hdev, hpeer⟩ := enableFbbe_spec F
      (S := S ++ (F.path, F.num) :: (p.keys F.path F.num).map fun r => (r.1, r.2.1))
      (List.mem_append_right _ List.mem_cons_self) hsc.hw (hsc.busnum.trans hnum) (by
        rw [hsc.bridged, hsc.pri]
        intro hb
        obtain ⟨path, hmem, hacc⟩ := hpri hb
        exact ⟨path, List.mem_append_left _ hmem, hacc⟩)
    have hsc' := hsc.mono (T := S) (by simp)
    exact ⟨bus', kids, enableFbbe bus' st', by rw [pciBusScan, hrun]; rfl,
      { hsc' with
        hw := hhw.trans hsc.hw
        devices := hdev.trans hsc.devices
        peers := hpeer.trans hsc.peers
        log := hsc'.log.trans hlog }⟩

end Pci
