import CobaltRom.Malloc.Resize

/-! A client of the allocator: whatever it calls, the call returns, and as long as `sbrk` has not
warned that the heap is out of space the areas it has lie apart and hold what it has put there. -/
namespace Malloc
open DoubleLink Tiling Hoare

variable {m m' m₀ : Machine} {s s' : Shape} {fuel k len : Nat} {p q size : UInt32} {v : UInt8}

/-! ### The first call -/

/-- The allocator before the first call. -/
structure Fresh (m : Machine) : Prop where
  initialized : m.initialized = false
  highWater : m.highWater = ramHeapSpace
  heaplimit : m.heaplimit = 0
  fragblocks : ∀ log, m.fragblocks log = 0
  placed : Placed m.fragheads
  warned : m.warned = false
  heads : ∀ log < 12, m.listNext (m.fraghead log) = 0

/-- A heap without clusters, behind the table. -/
def emptyShape : Shape := ⟨4, [], fun _ => [], fun _ => []⟩

theorem blockAddr_one : blockAddr 1 = ramHeapSpace := by decide

theorem emptyShape_holds (p : UInt32) (n : Nat) : ¬ emptyShape.Holds p n := holding_nil _

theorem sound_emptyShape (hinit : m.initialized = true) (hbase : m.heapbase = ramHeapSpace)
    (hsize : m.heapsize = 1024) (hbrk : m.highWater = blockAddr 4) (hplaced : Placed m.fragheads)
    (hinfo : ∀ b, m.heapinfo b = ⟨0, 0, 0⟩) (hindex : m.heapindex = 0) (hlimit : m.heaplimit = 0)
    (hblocks : ∀ log, m.fragblocks log = 0)
    (hheads : ∀ log < 12, m.listNext (m.fraghead log) = 0) : Sound m emptyShape := by
  refine ⟨⟨⟨hinit, hbase, hsize, hbrk, hplaced, le_refl 4, by decide⟩, ?_, ?_,
    List.isChain_nil, ?_⟩,
    Or.inr ⟨hlimit, rfl⟩, fun log b hb => ?_⟩
  · refine ⟨rfl, fun c hc => ?_, ?_, List.nodup_singleton 0, List.nodup_singleton 0, ?_⟩
    · cases hc
    · rw [hinfo]
    · refine linked_pair.mpr ⟨⟨?_, fun _ => ?_⟩, linked_single _ _ _ _⟩
      · rw [hinfo]
      · rw [hinfo]
  · refine ⟨fun log b hb => ?_, fun _ => List.nodup_nil, fun _ => List.nodup_nil,
      fun log b => ?_, ?_,
      hblocks⟩
    · cases hb
    · refine iff_of_false ?_ fun hb => ?_
      · exact List.not_mem_nil
      · exact List.not_mem_nil hb.1
    · intro log hlog
      refine ⟨List.nodup_singleton _, List.nodup_singleton 0, ?_⟩
      exact linked_pair.mpr ⟨⟨hheads log hlog, fun h0 => absurd rfl h0⟩, linked_single _ _ _ _⟩
  · rw [hindex]
    exact List.mem_cons_self
  · cases hb

/-- The table takes the first three blocks, and the heap is empty behind it. -/
theorem Fresh.mallocInitialize (h : Fresh m) :
    ∃ m', (Malloc.mallocInitialize).run m = some (true, m') ∧ Sound m' emptyShape ∧
      m'.warned = m.warned := by
  have hbrk : ({ m with heapsize := (heap / blocksize).toNat } : Machine).highWater =
      blockAddr 1 := by
    rw [blockAddr_one]
    exact h.highWater
  obtain ⟨mem, hrun, hframe⟩ := align_run (k := 3) hbrk (by decide) (by decide) (by decide)
  have hbytes : heap / blocksize * infoBytes = UInt32.ofInt (3 * 4096) := by decide
  have hheads : ∀ log < 12, mem.le32 (m.fraghead log) = 0 := by
    intro log hlog
    have hout := head_outside h.placed hlog
    have hbegin := toNat_blockAddr (b := 1) (by decide) (by decide)
    rw [← h.heads log hlog]
    refine Ram.le32_congr fun j hj => hframe _ ?_
    rw [UInt32.toNat_add, UInt32.toNat_ofNat']
    change _ ∨ 0x01f00000 ≤ _
    have hlt := (m.fraghead log).toNat_lt
    omega
  have hne : blockAddr 1 ≠ 0 := blockAddr_ne_zero (by decide) (by decide)
  rw [Malloc.mallocInitialize, run_modify_bind, hbytes, run_bind_some hrun,
    run_modify_bind, if_neg hne,
    run_modify_bind]
  refine ⟨_, rfl, sound_emptyShape rfl blockAddr_one ?_ rfl h.placed (fun _ => rfl) rfl h.heaplimit
    h.fragblocks hheads, rfl⟩
  change ((heap / blocksize).toNat : Int) = 1024
  decide

theorem Fresh.malloc (h : Fresh m) (hrun : (Malloc.mallocInitialize).run m = some (true, m'))
    (h' : Sound m' emptyShape) (fuel : Nat) (size : UInt32) :
    (Malloc.malloc fuel size).run m = (Malloc.malloc fuel size).run m' := by
  have hinit := h'.describes.ready.initialized
  rw [Malloc.malloc, run_get_bind, run_get_bind]
  dsimp only
  rw [h.initialized, hinit, if_neg Bool.false_ne_true, if_pos rfl, run_bind_some hrun, pure_bind]

/-! ### A client -/

/-- What a client does. -/
inductive Call where
  | malloc (size : UInt32)
  | free (ptr : UInt32)
  | realloc (ptr size : UInt32)
  | store (ptr : UInt32) (k : Nat) (v : UInt8)
  deriving DecidableEq, Repr

/-- The areas a client has, by address, with the bytes it has asked for as far as it knows them. -/
abbrev Ledger := UInt32 → Option (List (Option UInt8))

/-- What was asked for grows or shrinks. -/
def resized (size : UInt32) (bytes : List (Option UInt8)) : List (Option UInt8) :=
  bytes.take size.toNat ++ List.replicate (size.toNat - bytes.length) none

def Ledger.add (l : Ledger) (p : UInt32) (bytes : List (Option UInt8)) : Ledger :=
  if p = 0 then l else Function.update l p (some bytes)

/-- What a client knows after a call with its result. -/
def Ledger.after (l : Ledger) : Call → UInt32 → Ledger
  | .malloc size, r => l.add r (resized size [])
  | .free ptr, _ => Function.update l ptr none
  | .realloc ptr size, r =>
    if ptr = 0 then l.add r (resized size [])
    else if size = 0 then Function.update l ptr none
    else if r = 0 then l
    else Ledger.add (Function.update l ptr none) r (resized size ((l ptr).getD []))
  | .store ptr k v, _ => Function.update l ptr ((l ptr).map fun bytes => bytes.set k (some v))

/-- Sizes are no negative `int`, pointers are those of areas the client has, and it writes inside
of them. -/
def Permits (l : Ledger) : Call → Prop
  | .malloc size => size.toNat < 2 ^ 31
  | .free ptr => ptr = 0 ∨ (l ptr).isSome
  | .realloc ptr size => size.toNat < 2 ^ 31 ∧ (ptr = 0 ∨ (l ptr).isSome)
  | .store ptr k _ => ∃ bytes, l ptr = some bytes ∧ k < bytes.length

def exec (fuel : Nat) : Call → HeapM UInt32
  | .malloc size => Malloc.malloc fuel size
  | .free ptr => do
    Malloc.free fuel ptr
    pure 0
  | .realloc ptr size => Malloc.realloc fuel ptr size
  | .store ptr k v => do
    modify fun m => { m with mem := m.mem.store (ptr + .ofNat k) v }
    pure 0

/-- What a client can come to, with what it then knows, where `sbrk` has not warned. -/
inductive Reached (fuel : Nat) (m₀ : Machine) : Machine → Ledger → Prop
  | start : Reached fuel m₀ m₀ fun _ => none
  | call {m m' : Machine} {l : Ledger} {r : UInt32} (c : Call) : Reached fuel m₀ m l → Permits l c →
      (exec fuel c).run m = some (r, m') → m'.warned = false → Reached fuel m₀ m' (l.after c r)

/-- The client has the areas, and what it knows of them is so. -/
structure Honest (m : Machine) (s : Shape) (l : Ledger) : Prop where
  sound : Sound m s
  areas : ∀ p, (l p).isSome ↔ ∃ n, s.Holds p n
  fits : ∀ p bytes, l p = some bytes → ∃ n, s.Holds p n ∧ bytes.length ≤ n
  known : ∀ p bytes k v, l p = some bytes → bytes[k]? = some (some v) → m.mem (p + .ofNat k) = v

variable {l : Ledger} {bytes : List (Option UInt8)}

theorem length_resized (size : UInt32) (bytes : List (Option UInt8)) :
    (resized size bytes).length = size.toNat := by
  rw [resized, List.length_append, List.length_take, List.length_replicate]
  omega

/-- What is known of a new size was known before. -/
theorem known_resized (h : (resized size bytes)[k]? = some (some v)) :
    k < size.toNat ∧ bytes[k]? = some (some v) := by
  obtain ⟨hk, -⟩ := List.getElem?_eq_some_iff.mp h
  rw [length_resized] at hk
  refine ⟨hk, ?_⟩
  rw [resized] at h
  by_cases hlt : k < (bytes.take size.toNat).length
  · rw [List.getElem?_append_left hlt, List.getElem?_take, if_pos hk] at h
    exact h
  · rw [List.getElem?_append_right (by omega), List.getElem?_replicate] at h
    split at h
    · cases Option.some_inj.mp h
    · cases h

/-- An address in an area is not zero. -/
theorem Sound.ne_zero (h : Sound m s) (hp : s.Holds p len) : p ≠ 0 := by
  rintro rfl
  exact absurd (h.describes.bounds hp).1 (by decide)

/-- Where there is an area, the heap ends at its limit. -/
theorem Sound.held_limit (h : Sound m s) (hp : s.Holds p len) : m.heaplimit = s.lim := by
  obtain ⟨c, hc, -⟩ := hp
  have hmem := h.describes.blocks.tiled.mem hc
  exact h.limit.resolve_right fun hz => by omega

theorem Honest.none_zero (h : Honest m s l) : l 0 = none := by
  cases h0 : l 0 with
  | none => rfl
  | some bytes =>
    obtain ⟨n, hn, -⟩ := h.fits 0 bytes h0
    exact absurd rfl (h.sound.ne_zero hn)

theorem Honest.none_of_fresh (h : Honest m s l) (hfresh : ∀ n, ¬ s.Holds p n) : l p = none := by
  by_contra hsome
  obtain ⟨n, hn⟩ := (h.areas p).mp (Option.isSome_iff_ne_none.mpr hsome)
  exact hfresh n hn

/-- What is known of an area stays so where the area does. -/
theorem Honest.kept {held : UInt32 → Nat → Prop} (h : Honest m s l) {mem : Ram}
    (hkeeps : Keeps held m.mem mem) (hheld : ∀ n, s.Holds p n → held p n) (hl : l p = some bytes)
    (hb : bytes[k]? = some (some v)) : mem (p + .ofNat k) = v := by
  obtain ⟨n, hn, hfits⟩ := h.fits p bytes hl
  obtain ⟨hk, -⟩ := List.getElem?_eq_some_iff.mp hb
  have hbyte := h.sound.byte_inside hn (k := k) (by omega)
  rw [hkeeps p n (hheld n hn) _ (by omega) (by omega)]
  exact h.known p bytes k v hl hb

/-- A call changes what the client has and knows, address by address: nothing, or the area is gone,
or there is a new one. -/
theorem Honest.change {m' : Machine} {s' : Shape} {l' : Ledger} (h : Honest m s l)
    (hsound : Sound m' s')
    (hat : ∀ p,
      (l' p = l p ∧ (∀ n, s'.Holds p n ↔ s.Holds p n) ∧ ∀ bytes k v, l p = some bytes →
        bytes[k]? = some (some v) → m'.mem (p + .ofNat k) = v) ∨
      (l' p = none ∧ ∀ n, ¬ s'.Holds p n) ∨
      ∃ bytes n, l' p = some bytes ∧ s'.Holds p n ∧ bytes.length ≤ n ∧
        ∀ k v, bytes[k]? = some (some v) → m'.mem (p + .ofNat k) = v) :
    Honest m' s' l' := by
  refine ⟨hsound, fun p => ?_, fun p bytes hl => ?_, fun p bytes k v hl hb => ?_⟩
  · rcases hat p with ⟨hsame, hholds, -⟩ | ⟨hnone, hgone⟩ | ⟨bytes, n, hnew, hn, -, -⟩
    · rw [hsame, h.areas]
      exact exists_congr fun n => (hholds n).symm
    · rw [hnone]
      refine iff_of_false Bool.false_ne_true ?_
      rintro ⟨n, hn⟩
      exact hgone n hn
    · rw [hnew]
      exact iff_of_true rfl ⟨n, hn⟩
  · rcases hat p with ⟨hsame, hholds, -⟩ | ⟨hnone, hgone⟩ | ⟨bytes', n, hnew, hn, hlen, -⟩
    · rw [hsame] at hl
      obtain ⟨n, hn, hlen⟩ := h.fits p bytes hl
      exact ⟨n, (hholds n).mpr hn, hlen⟩
    · rw [hnone] at hl
      cases hl
    · rw [hnew] at hl
      obtain rfl := Option.some_inj.mp hl
      exact ⟨n, hn, hlen⟩
  · rcases hat p with ⟨hsame, -, hkept⟩ | ⟨hnone, hgone⟩ | ⟨bytes', n, hnew, hn, hlen, hknown⟩
    · rw [hsame] at hl
      exact hkept bytes k v hl hb
    · rw [hnone] at hl
      cases hl
    · rw [hnew] at hl
      obtain rfl := Option.some_inj.mp hl
      exact hknown k v hb

section Calls

variable (h : Honest m s l)
include h

/-- There is a new area. -/
theorem Honest.allocated {m' : Machine} {s' : Shape} (hfits : size.toNat ≤ len)
    (hfresh : ∀ n, ¬ s.Holds q n) (hsound : Sound m' s')
    (hholds : ∀ r n, s'.Holds r n ↔ s.Holds r n ∨ r = q ∧ n = len)
    (hkeeps : Keeps s.Holds m.mem m'.mem) :
    q ≠ 0 ∧ l q = none ∧ Honest m' s' (Function.update l q (some (resized size []))) := by
  have hq : s'.Holds q len := (hholds q len).mpr (Or.inr ⟨rfl, rfl⟩)
  refine ⟨hsound.ne_zero hq, h.none_of_fresh hfresh, h.change hsound fun p => ?_⟩
  by_cases hpq : p = q
  · subst hpq
    refine Or.inr (Or.inr ⟨_, len, Function.update_self _ _ _, hq, ?_, fun k v hb => ?_⟩)
    · rw [length_resized]
      exact hfits
    · cases (known_resized hb).2
  · refine Or.inl ⟨Function.update_of_ne hpq _ _, fun n => ?_, fun bytes k v hl hb =>
      h.kept hkeeps (fun n hn => hn) hl hb⟩
    rw [hholds]
    exact or_iff_left fun heq => hpq heq.1

theorem Honest.malloc (hsize : size.toNat < 2 ^ 31) (hfuel : 1024 < fuel) :
    ∃ r m', (Malloc.malloc fuel size).run m = some (r, m') ∧
      (m'.warned = false → ∃ s', Honest m' s' (l.add r (resized size []))) ∧
      (m'.warned = m.warned ∨ size ≠ 0) := by
  have halloc := h.sound.malloc hfuel hsize
  generalize (Malloc.malloc fuel size).run m = run at halloc
  cases halloc with
  | null hz =>
    refine ⟨_, _, rfl, fun _ => ⟨s, ?_⟩, Or.inl rfl⟩
    rw [Ledger.add, if_pos rfl]
    exact h
  | spent m' hsize0 _ hw =>
    refine ⟨_, m', rfl, fun hw' => ?_, Or.inr hsize0⟩
    rw [hw] at hw'
    exact absurd hw'.symm Bool.false_ne_true
  | area q len m' s' hsize0 _ hfits hfresh hsound hholds hkeeps _ _ =>
    obtain ⟨hq0, -, hhonest⟩ := h.allocated hfits hfresh hsound hholds hkeeps
    refine ⟨q, m', rfl, fun _ => ⟨s', ?_⟩, Or.inr hsize0⟩
    rw [Ledger.add, if_neg hq0]
    exact hhonest

/-- Where the heap can still grow by what is asked for, it is handed out. -/
theorem Honest.malloc_room (hsize : size.toNat < 2 ^ 31) (hsize0 : size ≠ 0) (hfuel : 1024 < fuel)
    (hroom : s.lim + need size ≤ 1024) :
    ∃ q m' s', (Malloc.malloc fuel size).run m = some (q, m') ∧ q ≠ 0 ∧ l q = none ∧
      Honest m' s' (Function.update l q (some (resized size []))) ∧ m'.warned = m.warned ∧
      s'.lim ≤ s.lim + need size := by
  have halloc := h.sound.malloc hfuel hsize
  generalize (Malloc.malloc fuel size).run m = run at halloc
  cases halloc with
  | null hz => exact absurd hz hsize0
  | spent m' _ hfull _ =>
    have := hfull.room hsize
    omega
  | area q len m' s' _ _ hfits hfresh hsound hholds hkeeps hw hlim =>
    obtain ⟨hq0, hnone, hhonest⟩ := h.allocated hfits hfresh hsound hholds hkeeps
    exact ⟨q, m', s', rfl, hq0, hnone, hhonest, hw, hlim⟩

/-- An area is given back, by whatever call. -/
theorem Honest.drop {m' : Machine} {s' : Shape} (hsound : Sound m' s')
    (hholds : ∀ q n, s'.Holds q n ↔ s.Holds q n ∧ q ≠ p) (hkeeps : Keeps s'.Holds m.mem m'.mem) :
    Honest m' s' (Function.update l p none) := by
  refine h.change hsound fun q => ?_
  by_cases hqp : q = p
  · subst hqp
    exact Or.inr (Or.inl ⟨Function.update_self _ _ _, fun n hn => ((hholds q n).mp hn).2 rfl⟩)
  · refine Or.inl ⟨Function.update_of_ne hqp _ _, fun n => ?_, fun bytes k v hl hb =>
      h.kept hkeeps (fun n hn => (hholds q n).mpr ⟨hn, hqp⟩) hl hb⟩
    rw [hholds]
    exact and_iff_left hqp

theorem Honest.free (hp : p = 0 ∨ (l p).isSome) (hfuel : 1024 < fuel) :
    ∃ m' s', (Malloc.free fuel p).run m = some ((), m') ∧
      Honest m' s' (Function.update l p none) ∧ m'.warned = m.warned := by
  by_cases hp0 : p = 0
  · subst hp0
    refine ⟨m, s, ?_, ?_, rfl⟩
    · rw [Malloc.free, if_pos rfl]
      rfl
    · have hsame : Function.update l 0 none = l := Function.update_eq_self_iff.mpr h.none_zero.symm
      rw [hsame]
      exact h
  · obtain ⟨n, hn⟩ := (h.areas p).mp (hp.resolve_left hp0)
    obtain ⟨m', s', hrun, hsound, hholds, hkeeps, hw⟩ := h.sound.free hfuel hn
    exact ⟨m', s', hrun, h.drop hsound hholds hkeeps, hw⟩

/-- An area is moved, or its size is changed. -/
theorem Honest.moved {m' : Machine} {s' : Shape} {n : Nat} {old : List (Option UInt8)}
    (hold : l p = some old) (hp : s.Holds p len) (hlen : old.length ≤ len) (hfits : size.toNat ≤ n)
    (hfresh : q = p ∨ ∀ n, ¬ s.Holds q n) (hsound : Sound m' s')
    (hholds : ∀ r n', s'.Holds r n' ↔ s.Holds r n' ∧ r ≠ p ∨ r = q ∧ n' = n)
    (hkeeps : Keeps (fun r n => s.Holds r n ∧ r ≠ p) m.mem m'.mem)
    (hsame : ∀ k < min size.toNat len, m'.mem (q + .ofNat k) = m.mem (p + .ofNat k)) :
    q ≠ 0 ∧ (q = p ∨ l q = none) ∧ Honest m' s'
      (Function.update (Function.update l p none) q (some (resized size old))) := by
  have hq : s'.Holds q n := (hholds q n).mpr (Or.inr ⟨rfl, rfl⟩)
  refine ⟨hsound.ne_zero hq, hfresh.imp_right h.none_of_fresh, h.change hsound fun r => ?_⟩
  by_cases hrq : r = q
  · subst hrq
    refine Or.inr (Or.inr ⟨_, n, Function.update_self _ _ _, hq, ?_, fun k v hb => ?_⟩)
    · rw [length_resized]
      exact hfits
    · obtain ⟨hk, hb⟩ := known_resized hb
      obtain ⟨hk', -⟩ := List.getElem?_eq_some_iff.mp hb
      rw [hsame k (by omega)]
      exact h.known p old k v hold hb
  · rw [Function.update_of_ne hrq]
    by_cases hrp : r = p
    · subst hrp
      refine Or.inr (Or.inl ⟨Function.update_self _ _ _, fun n' hn' => ?_⟩)
      exact ((hholds r n').mp hn').elim (fun hr => hr.2 rfl) fun hr => hrq hr.1
    · refine Or.inl ⟨Function.update_of_ne hrp _ _, fun n' => ?_, fun bytes k v hl hb =>
        h.kept hkeeps (fun n' hn' => ⟨hn', hrp⟩) hl hb⟩
      rw [hholds, or_iff_left fun heq => hrq heq.1, and_iff_left hrp]

/-- `realloc` to some bytes gives an area that takes over what the old one held, unless the heap is
out of space. -/
theorem Honest.realloc {old : List (Option UInt8)} (hold : l p = some old)
    (hsize : size.toNat < 2 ^ 31) (hsize0 : size ≠ 0) (hfuel : 1024 < fuel) :
    ∃ r m', (Malloc.realloc fuel p size).run m = some (r, m') ∧
      ((m'.warned = true ∧ 1024 < s.lim + need size) ∨
        m'.warned = m.warned ∧ r ≠ 0 ∧ (r = p ∨ l r = none) ∧ ∃ s', Honest m' s'
          (Function.update (Function.update l p none) r (some (resized size old)))) := by
  obtain ⟨len, hn, hlen⟩ := h.fits p old hold
  have hresizes := h.sound.realloc hfuel hsize hsize0 hn
  generalize (Malloc.realloc fuel p size).run m = run at hresizes
  cases hresizes with
  | spent m' hw hfull => exact ⟨_, m', rfl, Or.inl ⟨hw, hfull⟩⟩
  | area q n m' s' hfits hfresh hsound hholds hkeeps hsame hw =>
    obtain ⟨hq0, hnew, hhonest⟩ :=
      h.moved hold hn hlen hfits hfresh hsound hholds hkeeps hsame
    exact ⟨q, m', rfl, Or.inr ⟨hw, hq0, hnew, s', hhonest⟩⟩

/-- The client writes to one of its areas. -/
theorem Honest.store (hl : l p = some bytes) (hk : k < bytes.length) :
    Honest { m with mem := m.mem.store (p + .ofNat k) v } s
      (Function.update l p ((l p).map fun bytes => bytes.set k (some v))) := by
  obtain ⟨n, hn, hlen⟩ := h.fits p bytes hl
  have hd := h.sound.describes
  have hbyte := h.sound.byte_inside hn (k := k) (by omega)
  rw [hl, Option.map_some]
  refine h.change (h.sound.withMem hn fun a ha => ?_) fun q => ?_
  · refine Ram.store_ne fun heq => ha ?_
    rw [heq]
    omega
  · by_cases hqp : q = p
    · subst hqp
      refine Or.inr (Or.inr ⟨_, n, Function.update_self _ _ _, hn, ?_, fun j w hb => ?_⟩)
      · rw [List.length_set]
        exact hlen
      · obtain ⟨hj, -⟩ := List.getElem?_eq_some_iff.mp hb
        rw [List.length_set] at hj
        have hbyte' := h.sound.byte_inside hn (k := j) (by omega)
        by_cases hjk : k = j
        · subst hjk
          rw [List.getElem?_set_self hk] at hb
          obtain rfl := Option.some_inj.mp (Option.some_inj.mp hb)
          exact Ram.store_self _ _ _
        · rw [List.getElem?_set_ne hjk] at hb
          refine (Ram.store_ne fun heq => hjk ?_).trans (h.known q bytes j w hl hb)
          rw [heq] at hbyte'
          omega
    · refine Or.inl ⟨Function.update_of_ne hqp _ _, fun _ => Iff.rfl, fun bytes' j w hl' hb => ?_⟩
      obtain ⟨n', hn', hlen'⟩ := h.fits q bytes' hl'
      obtain ⟨hj, -⟩ := List.getElem?_eq_some_iff.mp hb
      have hbyte' := h.sound.byte_inside hn' (k := j) (by omega)
      have hapart := (hd.disjoint hn' hn).resolve_left fun heq => hqp heq.1
      refine (Ram.store_ne fun heq => ?_).trans (h.known q bytes' j w hl' hb)
      rw [heq] at hbyte'
      omega

end Calls

/-! ### Runs -/

/-- The allocator and what its client knows of it. -/
def Client (m : Machine) (l : Ledger) : Prop :=
  (Fresh m ∧ l = fun _ => none) ∨ ∃ s, Honest m s l

theorem honest_emptyShape (h : Sound m emptyShape) : Honest m emptyShape fun _ => none := by
  refine ⟨h, fun p => ?_, fun p bytes hl => ?_, fun p bytes k v hl => ?_⟩
  · refine iff_of_false Bool.false_ne_true ?_
    rintro ⟨n, hn⟩
    exact emptyShape_holds p n hn
  · cases hl
  · cases hl

/-- `malloc`, which may be the first call. -/
theorem Client.malloc (h : Client m l) (hsize : size.toNat < 2 ^ 31) (hfuel : 1024 < fuel) :
    ∃ r m', (Malloc.malloc fuel size).run m = some (r, m') ∧
      (m'.warned = false → Client m' (l.add r (resized size []))) ∧
      (m'.warned = m.warned ∨ size ≠ 0) := by
  rcases h with ⟨hfresh, rfl⟩ | ⟨s, h⟩
  · obtain ⟨m₁, hinit, hsound, hw₁⟩ := hfresh.mallocInitialize
    obtain ⟨r, m', hrun, h', hw⟩ := (honest_emptyShape hsound).malloc hsize hfuel
    rw [hw₁] at hw
    exact ⟨r, m', (hfresh.malloc hinit hsound fuel size).trans hrun, fun hw' => Or.inr (h' hw'), hw⟩
  · obtain ⟨r, m', hrun, h', hw⟩ := h.malloc hsize hfuel
    exact ⟨r, m', hrun, fun hw' => Or.inr (h' hw'), hw⟩

/-- How many bytes a call asks for. -/
def Call.asks : Call → UInt32
  | .malloc size | .realloc _ size => size
  | .free _ | .store _ _ _ => 0

/-- Whatever the client may call returns, and what it then knows is so; only a call that asks for
memory makes `sbrk` warn. -/
theorem Client.step (h : Client m l) (hfuel : 1024 < fuel) (c : Call) (hc : Permits l c) :
    ∃ r m', (exec fuel c).run m = some (r, m') ∧
      (m'.warned = false → Client m' (l.after c r)) ∧ (m'.warned = m.warned ∨ c.asks ≠ 0) := by
  cases c with
  | malloc size => exact h.malloc hc hfuel
  | free p =>
    rcases h with ⟨hfresh, rfl⟩ | ⟨s, h⟩
    · obtain rfl : p = 0 := hc.resolve_right Bool.false_ne_true
      refine ⟨0, m, ?_, fun _ => Or.inl ⟨hfresh, ?_⟩, Or.inl rfl⟩
      · rw [exec, Malloc.free, if_pos rfl]
        rfl
      · exact Function.update_eq_self_iff.mpr rfl
    · obtain ⟨m', s', hrun, h', hw⟩ := h.free hc hfuel
      exact ⟨0, m', by rw [exec, run_bind_some hrun]; rfl, fun _ => Or.inr ⟨s', h'⟩, Or.inl hw⟩
  | realloc p size =>
    obtain ⟨hsize, hp⟩ := hc
    rw [exec]
    by_cases hp0 : p = 0
    · subst hp0
      obtain ⟨r, m', hrun, h', hw⟩ := h.malloc hsize hfuel
      refine ⟨r, m', ?_, ?_, hw⟩
      · rw [Malloc.realloc, if_pos rfl]
        exact hrun
      · rw [Ledger.after, if_pos rfl]
        exact h'
    · have hp := hp.resolve_left hp0
      rcases h with ⟨hfresh, rfl⟩ | ⟨s, h⟩
      · exact absurd hp Bool.false_ne_true
      · by_cases hsize0 : size = 0
        · subst hsize0
          obtain ⟨n, hn⟩ := (h.areas p).mp hp
          obtain ⟨m', s', hrun, hsound, hholds, hkeeps, hw⟩ := h.sound.realloc_zero hn hfuel
          refine ⟨0, m', hrun, fun _ => Or.inr ⟨s', ?_⟩, Or.inl hw⟩
          rw [Ledger.after, if_neg hp0, if_pos rfl]
          exact h.drop hsound hholds hkeeps
        · obtain ⟨old, hold⟩ := Option.isSome_iff_exists.mp hp
          obtain ⟨r, m', hrun, hcases⟩ := h.realloc hold hsize hsize0 hfuel
          refine ⟨r, m', hrun, fun hw => ?_, Or.inr hsize0⟩
          rcases hcases with ⟨hwarned, -⟩ | ⟨-, hr0, -, h'⟩
          · rw [hw] at hwarned
            exact absurd hwarned Bool.false_ne_true
          · rw [Ledger.after, if_neg hp0, if_neg hsize0, if_neg hr0, Ledger.add, if_neg hr0, hold]
            exact Or.inr h'
  | store p k v =>
    obtain ⟨bytes, hl, hk⟩ := hc
    rcases h with ⟨hfresh, rfl⟩ | ⟨s, h⟩
    · cases hl
    · exact ⟨0, _, rfl, fun _ => Or.inr ⟨s, h.store hl hk⟩, Or.inl rfl⟩

/-- `sbrk` has not warned, and what the client knows is so. -/
theorem Client.reached (hfresh : Fresh m₀) (hfuel : 1024 < fuel) (hr : Reached fuel m₀ m l) :
    Client m l ∧ m.warned = false := by
  induction hr with
  | start => exact ⟨Or.inl ⟨hfresh, rfl⟩, hfresh.warned⟩
  | call c _ hc hrun hw ih =>
    obtain ⟨r, m', hrun', h', -⟩ := ih.1.step hfuel c hc
    rw [hrun'] at hrun
    cases hrun
    exact ⟨h' hw, hw⟩

/-! ### Two areas -/

/-- The allocator as the image is loaded, with a cleared memory. -/
def bootMachine : Machine where
  highWater := ramHeapSpace
  initialized := false
  heapbase := 0
  heapsize := 0
  heapinfo := fun _ => ⟨0, 0, 0⟩
  infoAddr := 0
  heapindex := 0
  heaplimit := 0
  fragblocks := fun _ => 0
  fragheads := 0x01a00000
  mem := fun _ => 0
  warned := false

theorem fresh_bootMachine : Fresh bootMachine :=
  ⟨rfl, rfl, rfl, fun _ => rfl, ⟨by decide, Or.inl (by decide)⟩, rfl,
    fun _ _ => show WordBytes.be32 0 0 0 0 = 0 by decide⟩

/-- A client that has five bytes at `p`, the first of which it has written. -/
def fiveBytes (p : UInt32) : Ledger :=
  Function.update (fun _ => none) p (some [some 7, none, none, none, none])

/-- A client that has two blocks at `q` as well. -/
def twoAreas (p q : UInt32) : Ledger := Function.update (fiveBytes p) q (some (resized 5000 []))

theorem bootMachine_five : ∃ p m s, p ≠ 0 ∧ Reached 2000 bootMachine m (fiveBytes p) ∧
    Honest m s (fiveBytes p) ∧ m.warned = false ∧ s.lim ≤ 5 := by
  obtain ⟨m₁, hinit, hsound, hw₁⟩ := fresh_bootMachine.mallocInitialize
  have hsame := fresh_bootMachine.malloc hinit hsound 2000 5
  obtain ⟨p, m₂, s, hrun, hp0, -, h₂, hw₂, hlim⟩ := (honest_emptyShape hsound).malloc_room
    (show (5 : UInt32).toNat < 2 ^ 31 by decide) (by decide) (show 1024 < 2000 by decide)
    (by decide)
  have hw : m₂.warned = false := hw₂.trans hw₁
  have hreached : Reached 2000 bootMachine m₂ (Ledger.after (fun _ => none) (.malloc 5) p) :=
    .call (.malloc 5) .start (show (5 : UInt32).toNat < 2 ^ 31 by decide) (hsame.trans hrun) hw
  rw [Ledger.after, Ledger.add, if_neg hp0] at hreached
  have hl : Function.update (fun _ => none) p (some (resized 5 [])) p =
      some [none, none, none, none, none] := Function.update_self _ _ _
  have hseven : ∀ l' : Ledger, l' = Function.update (fun _ => none) p (some (resized 5 [])) →
      Function.update l' p ((l' p).map fun bytes => bytes.set 0 (some 7)) = fiveBytes p := by
    rintro _ rfl
    rw [hl, fiveBytes, Function.update_idem]
    rfl
  have hnext := Reached.call (.store p 0 7) hreached ⟨_, hl, by decide⟩ rfl hw
  have hstore := h₂.store hl (k := 0) (v := 7) (by decide)
  rw [Ledger.after, hseven _ rfl] at hnext
  rw [hseven _ rfl] at hstore
  exact ⟨p, _, s, hp0, hnext, hstore, hw, hlim⟩

theorem bootMachine_two : ∃ p q m s, q ≠ p ∧ Reached 2000 bootMachine m (twoAreas p q) ∧
    Honest m s (twoAreas p q) ∧ m.warned = false ∧ s.lim ≤ 7 := by
  obtain ⟨p, m, s, hp0, hreached, h, hw, hlim⟩ := bootMachine_five
  have hneed : need 5000 = 2 := by decide
  obtain ⟨q, m', s', hrun, hq0, hnone, h', hw', hlim'⟩ :=
    h.malloc_room (show (5000 : UInt32).toNat < 2 ^ 31 by decide) (by decide)
      (show 1024 < 2000 by decide) (by omega)
  have hqp : q ≠ p := by
    rintro rfl
    rw [fiveBytes, Function.update_self] at hnone
    cases hnone
  have hnext := Reached.call (.malloc 5000) hreached (show (5000 : UInt32).toNat < 2 ^ 31 by decide)
    hrun (hw'.trans hw)
  rw [Ledger.after, Ledger.add, if_neg hq0] at hnext
  exact ⟨p, q, m', s', hqp, hnext, h', hw'.trans hw, by omega⟩

theorem twoAreas_first {p q : UInt32} (h : q ≠ p) :
    twoAreas p q p = some [some 7, none, none, none, none] := by
  rw [twoAreas, Function.update_of_ne h.symm, fiveBytes, Function.update_self]

theorem twoAreas_second (p q : UInt32) : twoAreas p q q = some (resized 5000 []) :=
  Function.update_self _ _ _

section Reached

variable (hfresh : Fresh m₀) (hfuel : 1024 < fuel) (hr : Reached fuel m₀ m l)
include hfresh hfuel hr

/-- No loop of the allocator runs on, and only a call that asks for memory may come to the warning
of `sbrk`. -/
theorem call_returns (c : Call) (hc : Permits l c) :
    ∃ r m', (exec fuel c).run m = some (r, m') ∧ (m'.warned = true → c.asks ≠ 0) := by
  obtain ⟨h, hw⟩ := Client.reached hfresh hfuel hr
  obtain ⟨r, m', hrun, -, hwarned⟩ := h.step hfuel c hc
  refine ⟨r, m', hrun, fun hw' => hwarned.resolve_left ?_⟩
  rw [hw, hw']
  exact Bool.false_ne_true.symm

omit hfresh hfuel hr in
theorem call_returns_two : ∃ p q m, Reached 2000 bootMachine m (twoAreas p q) ∧
    (∃ r m', (exec 2000 (.realloc p 100)).run m = some (r, m')) ∧
    ∃ r m', (exec 2000 (.free q)).run m = some (r, m') ∧ m'.warned = false := by
  obtain ⟨p, q, m, s, hqp, hreached, h, -⟩ := bootMachine_two
  have hp : (twoAreas p q p).isSome := by
    rw [twoAreas_first hqp]
    rfl
  have hq : (twoAreas p q q).isSome := by
    rw [twoAreas_second]
    rfl
  obtain ⟨r, m₁, hrealloc, -⟩ := call_returns fresh_bootMachine (by decide) hreached
    (.realloc p 100) ⟨by decide, Or.inr hp⟩
  obtain ⟨r', m₂, hfree, hw⟩ := call_returns fresh_bootMachine (by decide) hreached (.free q)
    (Or.inr hq)
  exact ⟨p, q, m, hreached, ⟨r, m₁, hrealloc⟩, r', m₂, hfree,
    Bool.eq_false_iff.mpr fun hw' => hw hw' rfl⟩

theorem Client.honest (hl : l p = some bytes) : ∃ s, Honest m s l := by
  rcases (Client.reached hfresh hfuel hr).1 with ⟨-, rfl⟩ | h
  · cases hl
  · exact h

/-- An area lies in the heap, at a multiple of eight, and apart from all others. -/
theorem areas_apart (hl : l p = some bytes) :
    (0x01b03000 ≤ p.toNat ∧ p.toNat + bytes.length ≤ 0x01eff000 ∧ p.toNat % 8 = 0) ∧
      ∀ q bytes', q ≠ p → l q = some bytes' →
        p.toNat + bytes.length ≤ q.toNat ∨ q.toNat + bytes'.length ≤ p.toNat := by
  obtain ⟨s, h⟩ := Client.honest hfresh hfuel hr hl
  have hd := h.sound.describes
  obtain ⟨n, hn, hlen⟩ := h.fits p bytes hl
  have hbounds := hd.bounds hn
  have hinside := hd.inside hn
  refine ⟨⟨hbounds.1, by omega, hbounds.2.2.1⟩, fun q bytes' hne hl' => ?_⟩
  obtain ⟨n', hn', hlen'⟩ := h.fits q bytes' hl'
  have hapart := (hd.disjoint hn hn').resolve_left fun heq => hne heq.1.symm
  omega

omit hfresh hfuel hr in
theorem areas_apart_two : ∃ p q m, Reached 2000 bootMachine m (twoAreas p q) ∧
    (0x01b03000 ≤ p.toNat ∧ p.toNat + 5 ≤ 0x01eff000 ∧ p.toNat % 8 = 0) ∧
      (p.toNat + 5 ≤ q.toNat ∨ q.toNat + 5000 ≤ p.toNat) := by
  obtain ⟨p, q, m, s, hqp, hreached, -⟩ := bootMachine_two
  obtain ⟨hplace, hapart⟩ :=
    areas_apart fresh_bootMachine (by decide) hreached (twoAreas_first hqp)
  have hsecond := hapart q _ hqp (twoAreas_second p q)
  rw [length_resized] at hsecond
  exact ⟨p, q, m, hreached, hplace, hsecond⟩

/-- What the client has written is there, wherever `realloc` has taken it since. -/
theorem contents_kept (hl : l p = some bytes) (hb : bytes[k]? = some (some v)) :
    m.mem (p + .ofNat k) = v := by
  obtain ⟨s, h⟩ := Client.honest hfresh hfuel hr hl
  exact h.known p bytes k v hl hb

omit hfresh hfuel hr in
/-- The byte is there after `realloc` has moved it and the other area is gone. -/
theorem contents_kept_two : ∃ p q m p' m₁ m₂, Reached 2000 bootMachine m (twoAreas p q) ∧
    (exec 2000 (.realloc p 100)).run m = some (p', m₁) ∧
    (exec 2000 (.free q)).run m₁ = some (0, m₂) ∧ m₂.mem (p' + .ofNat 0) = 7 := by
  obtain ⟨p, q, m, s, hqp, hreached, h, hw, hlim⟩ := bootMachine_two
  have hneed : need 100 = 1 := by decide
  have hfirst := twoAreas_first hqp
  have hp0 : p ≠ 0 := by
    rintro rfl
    rw [h.none_zero] at hfirst
    cases hfirst
  obtain ⟨p', m₁, hrun₁, hcases⟩ :=
    h.realloc hfirst (show (100 : UInt32).toNat < 2 ^ 31 by decide) (by decide)
      (show 1024 < 2000 by decide)
  obtain ⟨hw₁, hp'0, hnew, s₁, h₁⟩ := hcases.resolve_left fun hwarned => by omega
  have hqp' : q ≠ p' := by
    rintro rfl
    refine hnew.elim hqp fun hnone => ?_
    rw [twoAreas_second] at hnone
    cases hnone
  have hnext := Reached.call (.realloc p 100) hreached
    ⟨by decide, Or.inr (by rw [hfirst]; rfl)⟩ hrun₁ (hw₁.trans hw)
  rw [Ledger.after, if_neg hp0, if_neg (by decide), if_neg hp'0, Ledger.add, if_neg hp'0, hfirst,
    Option.getD_some] at hnext
  generalize hl₁ : Function.update (Function.update (twoAreas p q) p none) p'
    (some (resized 100 [some 7, none, none, none, none])) = l₁ at h₁ hnext
  have hq : (l₁ q).isSome := by
    rw [← hl₁, Function.update_of_ne hqp', Function.update_of_ne hqp, twoAreas_second]
    rfl
  obtain ⟨m₂, s₂, hrun₂, h₂, hw₂⟩ := h₁.free (Or.inr hq) (show 1024 < 2000 by decide)
  have hexec : (exec 2000 (.free q)).run m₁ = some (0, m₂) := by
    rw [exec, run_bind_some hrun₂]
    rfl
  have hlast := Reached.call (.free q) hnext (Or.inr hq) hexec (hw₂.trans (hw₁.trans hw))
  have hp' : Ledger.after l₁ (.free q) 0 p' =
      some (resized 100 [some 7, none, none, none, none]) := by
    rw [Ledger.after, Function.update_of_ne hqp'.symm, ← hl₁, Function.update_self]
  exact ⟨p, q, m, p', m₁, m₂, hreached, hrun₁, hexec,
    contents_kept fresh_bootMachine (by decide) hlast hp' rfl⟩

/-- When all has been given back, what is not free is at most one block for each size of fragments,
with all its fragments free. -/
theorem all_freed (hnone : ∀ p, l p = none) :
    Fresh m ∨ ∃ s, Describes m s ∧ ∀ c ∈ s.clusters, c.use = .free ∨
      ∃ log, c.use = .frag log ∧ 3 ≤ log ∧ log < 12 ∧ (s.group c.start).length = 2 ^ (12 - log) ∧
        fragBlocks log s.clusters = [c.start] := by
  rcases (Client.reached hfresh hfuel hr).1 with ⟨hm, -⟩ | ⟨s, h⟩
  · exact Or.inl hm
  · have hfree : ∀ p n, ¬ s.Holds p n := by
      intro p n hn
      have hsome := (h.areas p).mpr ⟨n, hn⟩
      rw [hnone] at hsome
      exact Bool.false_ne_true hsome
    refine Or.inr ⟨s, h.sound.describes, fun c hc => ?_⟩
    obtain ⟨b, n, use⟩ := c
    cases use with
    | free => exact Or.inl rfl
    | large => exact absurd ⟨_, hc, rfl, rfl⟩ (hfree (blockAddr b) (n * 4096).toNat)
    | frag log =>
      have hb : b ∈ fragBlocks log s.clusters := mem_fragBlocks.mpr ⟨_, hc, rfl, rfl⟩
      obtain ⟨-, -, hlog3, hlog⟩ := h.sound.frag_size hb
      have hall : List.range (2 ^ (12 - log)) ⊆ s.group b := by
        intro i hi
        by_contra hused
        exact hfree _ _ ⟨_, hc, i, List.mem_range.mp hi, hused, rfl, rfl⟩
      -- as many are in the list as the block has, so no second block has this size
      have hge := (List.nodup_range.subperm hall).length_le
      rw [List.length_range] at hge
      have hlen := le_antisymm (h.sound.group_le hb) hge
      obtain ⟨x, hx⟩ := List.length_eq_one_iff.mp (h.sound.sole log b hb hlen)
      rw [hx] at hb
      obtain rfl := List.mem_singleton.mp hb
      exact Or.inr ⟨log, rfl, hlog3, hlog, hlen, hx⟩

omit hfresh hfuel hr in
theorem all_freed_two : ∃ p q m m₁ m₂, Reached 2000 bootMachine m (twoAreas p q) ∧
    (exec 2000 (.free p)).run m = some (0, m₁) ∧ (exec 2000 (.free q)).run m₁ = some (0, m₂) ∧
    ∃ s, Describes m₂ s ∧ ∀ c ∈ s.clusters, c.use = .free ∨
      ∃ log, c.use = .frag log ∧ 3 ≤ log ∧ log < 12 ∧ (s.group c.start).length = 2 ^ (12 - log) ∧
        fragBlocks log s.clusters = [c.start] := by
  obtain ⟨p, q, m, s, hqp, hreached, h, hw, -⟩ := bootMachine_two
  have hp : (twoAreas p q p).isSome := by
    rw [twoAreas_first hqp]
    rfl
  obtain ⟨m₁, s₁, hrun₁, h₁, hw₁⟩ := h.free (Or.inr hp) (show 1024 < 2000 by decide)
  have hexec₁ : (exec 2000 (.free p)).run m = some (0, m₁) := by
    rw [exec, run_bind_some hrun₁]
    rfl
  have hnext := Reached.call (.free p) hreached (Or.inr hp) hexec₁ (hw₁.trans hw)
  have hq : (Function.update (twoAreas p q) p none q).isSome := by
    rw [Function.update_of_ne hqp, twoAreas_second]
    rfl
  obtain ⟨m₂, s₂, hrun₂, h₂, hw₂⟩ := h₁.free (Or.inr hq) (show 1024 < 2000 by decide)
  have hexec₂ : (exec 2000 (.free q)).run m₁ = some (0, m₂) := by
    rw [exec, run_bind_some hrun₂]
    rfl
  have hlast := Reached.call (.free q) hnext (Or.inr hq) hexec₂ (hw₂.trans (hw₁.trans hw))
  have hnone : ∀ r, (((twoAreas p q).after (.free p) 0).after (.free q) 0) r = none := by
    intro r
    simp only [Ledger.after, twoAreas, fiveBytes, Function.update_apply]
    split <;> simp_all
  refine ⟨p, q, m, m₁, m₂, hreached, hexec₁, hexec₂, ?_⟩
  refine (all_freed fresh_bootMachine (by decide) hlast hnone).resolve_left fun hfresh => ?_
  have hinit := h₂.sound.describes.ready.initialized
  rw [hfresh.initialized] at hinit
  exact Bool.false_ne_true hinit

end Reached

/-! ### When the heap is out of space -/

/-- `malloc` comes to the warning of `sbrk` where nothing is left for it, and otherwise gives
nothing only where nothing is asked for. -/
theorem malloc_warns_iff (h : Sound m s) (hw : m.warned = false) (hsize : size.toNat < 2 ^ 31)
    (hfuel : 1024 < fuel) :
    ∃ r m', (Malloc.malloc fuel size).run m = some (r, m') ∧
      (m'.warned = true ↔ size ≠ 0 ∧ Full s size) ∧ (m'.warned = false → (r = 0 ↔ size = 0)) := by
  have halloc := h.malloc hfuel hsize
  generalize (Malloc.malloc fuel size).run m = run at halloc
  cases halloc with
  | null hz =>
    refine ⟨_, _, rfl, ?_, fun _ => iff_of_true rfl hz⟩
    rw [hw]
    exact iff_of_false Bool.false_ne_true fun hor => hor.1 hz
  | spent m' hsize0 hfull hw' =>
    refine ⟨_, m', rfl, iff_of_true hw' ⟨hsize0, hfull⟩, fun hquiet => ?_⟩
    rw [hw'] at hquiet
    exact absurd hquiet.symm Bool.false_ne_true
  | area q len m' s' hsize0 hfull _ _ hsound hholds _ hw' _ =>
    refine ⟨q, m', rfl, ?_, fun _ => iff_of_false ?_ hsize0⟩
    · rw [hw', hw]
      exact iff_of_false Bool.false_ne_true fun hor => hfull hor.2
    · exact hsound.ne_zero ((hholds q len).mpr (Or.inr ⟨rfl, rfl⟩))

/-- As many blocks as the heap has are never left: three are those of the table. -/
theorem Sound.full_heap (h : Sound m s) : Full s 0x400000 := by
  have htiled := h.describes.blocks.tiled
  have hlow := h.describes.ready.low
  have hhigh := h.describes.ready.high
  have hsize : blockify (roundedSize 0x400000) = 1024 := by decide
  rw [Full, if_neg (by decide), hsize]
  refine ⟨fun c hc _ => ?_, by omega, fun c hc _ => ?_⟩
  · have := htiled.mem hc
    omega
  · have := htiled.mem (List.mem_of_getLast? hc)
    omega

theorem malloc_warns_two : ∃ p q m, Reached 2000 bootMachine m (twoAreas p q) ∧
    (∃ r m', (Malloc.malloc 2000 5000).run m = some (r, m') ∧ m'.warned = false ∧ r ≠ 0) ∧
    ∃ r m', (Malloc.malloc 2000 0x400000).run m = some (r, m') ∧ m'.warned = true := by
  obtain ⟨p, q, m, s, -, hreached, h, hw, hlim⟩ := bootMachine_two
  have hneed : need 5000 = 2 := by decide
  obtain ⟨r, m', hrun, hwarned, hnull⟩ : ∃ r m', (Malloc.malloc 2000 5000).run m = some (r, m') ∧
      (m'.warned = true ↔ (5000 : UInt32) ≠ 0 ∧ Full s 5000) ∧
      (m'.warned = false → (r = 0 ↔ (5000 : UInt32) = 0)) :=
    malloc_warns_iff h.sound hw (by decide) (by decide)
  have hquiet : m'.warned = false := by
    refine Bool.eq_false_iff.mpr fun hw' => ?_
    have := (hwarned.mp hw').2.room (by decide)
    omega
  obtain ⟨r₂, m₂, hrun₂, hwarned₂, -⟩ : ∃ r m', (Malloc.malloc 2000 0x400000).run m = some (r, m') ∧
      (m'.warned = true ↔ (0x400000 : UInt32) ≠ 0 ∧ Full s 0x400000) ∧
      (m'.warned = false → (r = 0 ↔ (0x400000 : UInt32) = 0)) :=
    malloc_warns_iff h.sound hw (by decide) (by decide)
  refine ⟨p, q, m, hreached, ⟨r, m', hrun, hquiet, fun hr => ?_⟩, r₂, m₂, hrun₂,
    hwarned₂.mpr ⟨by decide, h.sound.full_heap⟩⟩
  exact absurd ((hnull hquiet).mp hr) (by decide)

/-- `realloc` of an area to some bytes gives an area, unless it comes to the warning; that it does
only where fewer blocks are left behind the heap than the new size takes. -/
theorem realloc_gives (hfresh : Fresh m₀) (hfuel : 1024 < fuel) (hr : Reached fuel m₀ m l)
    (hl : (l p).isSome) (hsize : size.toNat < 2 ^ 31) (hsize0 : size ≠ 0) :
    ∃ r m', (Malloc.realloc fuel p size).run m = some (r, m') ∧
      ((m'.warned = true ∧ 1024 < m.heaplimit + need size) ∨ m'.warned = false ∧ r ≠ 0) := by
  obtain ⟨bytes, hl⟩ := Option.isSome_iff_exists.mp hl
  obtain ⟨s, h⟩ := Client.honest hfresh hfuel hr hl
  have hw := (Client.reached hfresh hfuel hr).2
  obtain ⟨n, hn, -⟩ := h.fits p bytes hl
  have hlimit := h.sound.held_limit hn
  obtain ⟨r, m', hrun, hcases⟩ := h.realloc hl hsize hsize0 hfuel
  rw [← hlimit] at hcases
  exact ⟨r, m', hrun, hcases.imp_right fun hgiven => ⟨hgiven.1.trans hw, hgiven.2.1⟩⟩

theorem realloc_gives_two : ∃ p q m, Reached 2000 bootMachine m (twoAreas p q) ∧
    ∃ r m', (Malloc.realloc 2000 q 9000).run m = some (r, m') ∧ m'.warned = false ∧ r ≠ 0 := by
  obtain ⟨p, q, m, s, hqp, hreached, h, -, hlim⟩ := bootMachine_two
  have hneed : need 9000 = 3 := by decide
  have hq : (twoAreas p q q).isSome := by
    rw [twoAreas_second]
    rfl
  obtain ⟨n, hn⟩ := (h.areas q).mp hq
  have hlimit := h.sound.held_limit hn
  obtain ⟨r, m', hrun, hcases⟩ :=
    realloc_gives fresh_bootMachine (show 1024 < 2000 by decide) hreached hq
      (show (9000 : UInt32).toNat < 2 ^ 31 by decide) (by decide)
  exact ⟨p, q, m, hreached, r, m', hrun, hcases.resolve_left fun hwarned => by omega⟩

end Malloc
