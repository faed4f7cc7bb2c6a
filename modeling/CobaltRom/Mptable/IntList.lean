import CobaltRom.Mptable.Table

/-! The interrupt list as a chain of nodes with a pointer to its last link. -/
namespace Mptable

/-- `mpINT_node_t`; nodes are numbered in the order in which they are allocated. -/
structure IntNode where
  entry : IntEntry
  next : Option Nat

/-- The nodes, `mpINT_list` and `mpINT_list_head`, which points to `mpINT_list` itself (`none`)
or to the link of a node. -/
structure IntHeap where
  nodes : List IntNode
  list : Option Nat
  head : Option Nat

namespace IntHeap

def start : IntHeap := ⟨[], none, none⟩

/-- `*mpINT_list_head = node`. -/
def link (h : IntHeap) (n : Nat) : IntHeap :=
  match h.head with
  | none => { h with list := some n }
  | some i => { h with nodes := h.nodes.modify i fun node => { node with next := some n } }

/-- `mpINT_add` when memory is found. -/
def add (e : IntEntry) (h : IntHeap) : IntHeap :=
  let n := h.nodes.length
  { ({ h with nodes := h.nodes ++ [⟨e, none⟩] } : IntHeap).link n with head := some n }

/-- What `mptable_init` does to the list. -/
def init (h : IntHeap) : IntHeap := { h with list := none }

/-- The entries from a link on; `none` when the end is not found in time. -/
def walk (nodes : List IntNode) : Nat → Option Nat → Option (List IntEntry)
  | _, none => some []
  | 0, some _ => none
  | fuel + 1, some i =>
    match nodes[i]? with
    | none => none
    | some node => (walk nodes fuel node.next).map (node.entry :: ·)

/-- The entries reachable from `mpINT_list`. -/
def entries (h : IntHeap) : Option (List IntEntry) := walk h.nodes h.nodes.length h.list

end IntHeap

/-- `src.irq.pci`: the pin is in the low two bits, the device in the next five. -/
def IntEntry.pin (e : IntEntry) : UInt8 := e.srcIrq &&& 3
def IntEntry.dev (e : IntEntry) : UInt8 := (e.srcIrq >>> 2) &&& 0x1f

/-- The key of an entry, as `mpINT_find` compares it. -/
def IntEntry.hasKey (bus dev pin : UInt8) (e : IntEntry) : Bool :=
  e.srcBus == bus && e.dev == dev && e.pin == pin

/-- The loop of `mpINT_find`; the outer `none` when it does not end in time. -/
def mpINTFindLoop (nodes : List IntNode) (bus dev pin : UInt8) :
    Nat → Option Nat → Option (Option IntEntry)
  | _, none => some none
  | 0, some _ => none
  | fuel + 1, some i =>
    match nodes[i]? with
    | none => none
    | some node =>
      if node.entry.hasKey bus dev pin then some (some node.entry)
      else mpINTFindLoop nodes bus dev pin fuel node.next

def mpINTFind (bus dev pin : UInt8) (h : IntHeap) : Option (Option IntEntry) :=
  mpINTFindLoop h.nodes bus dev pin h.nodes.length h.list

/-- A call of `mpINT_add` or `mptable_init`. -/
inductive ListOp
  | add (e : IntEntry)
  | init

def ListOp.step (h : IntHeap) : ListOp → IntHeap
  | add e => h.add e
  | init => h.init

def heapAfter (ops : List ListOp) : IntHeap := ops.foldl ListOp.step IntHeap.start

/-- The entries added before the last `mptable_init`, and those added since. -/
def ListOp.around (p : List IntEntry × List IntEntry) : ListOp → List IntEntry × List IntEntry
  | add e => (p.1, p.2 ++ [e])
  | init => (p.1 ++ p.2, [])

def addedAround (ops : List ListOp) : List IntEntry × List IntEntry :=
  ops.foldl ListOp.around ([], [])

/-- The list is what was added since the last `mptable_init`, and `mpINT_find` finds the first
match in it. -/
def ListRight (ops : List ListOp) : Prop :=
  (heapAfter ops).entries = some (addedAround ops).2 ∧
    ∀ bus dev pin, mpINTFind bus dev pin (heapAfter ops) =
      some ((addedAround ops).2.find? (IntEntry.hasKey bus dev pin))

variable {es : List IntEntry} {h : IntHeap} {ops : List ListOp} {i : Nat}

theorem addedAround_snoc (ops : List ListOp) (o : ListOp) :
    addedAround (ops ++ [o]) = o.around (addedAround ops) := by
  simp [addedAround]

/-- The nodes of a chain in which each points to the next. -/
def chained (es : List IntEntry) : List IntNode :=
  es.mapIdx fun i e => IntNode.mk e (if i + 1 < es.length then some (i + 1) else none)

theorem chained_length (es : List IntEntry) : (chained es).length = es.length := by
  simp [chained]

theorem chained_get (es : List IntEntry) (i : Nat) : (chained es)[i]? =
    es[i]?.map fun e => IntNode.mk e (if i + 1 < es.length then some (i + 1) else none) := by
  simp [chained]

/-- Linking a new node behind the last one extends the chain. -/
theorem chained_snoc {es : List IntEntry} (hne : es ≠ []) (e : IntEntry) :
    (chained es ++ [IntNode.mk e none]).modify (es.length - 1)
      (fun node => { node with next := some es.length }) = chained (es ++ [e]) := by
  have hpos : 0 < es.length := List.length_pos_iff.2 hne
  refine List.ext_getElem? fun j => ?_
  rw [List.getElem?_modify, chained_get, List.length_append, List.length_singleton]
  by_cases hj : j < es.length
  · rw [List.getElem?_append_left (by rw [chained_length]; exact hj),
      List.getElem?_append_left hj, chained_get, List.getElem?_eq_getElem hj]
    by_cases hlast : es.length - 1 = j
    · have hj' : j + 1 = es.length := by omega
      simp [hlast, hj']
    · have hj' : j + 1 < es.length := by omega
      have hj'' : j + 1 < es.length + 1 := by omega
      simp [hlast, hj', hj'']
  · rw [List.getElem?_append_right (by rw [chained_length]; omega),
      List.getElem?_append_right (by omega), chained_length]
    by_cases hend : j = es.length
    · subst hend
      have hne' : es.length - 1 ≠ es.length := by omega
      simp [hne']
    · have hsub : j - es.length ≠ 0 := by omega
      obtain ⟨d, hd⟩ := Nat.exists_eq_succ_of_ne_zero hsub
      simp [hd]

/-- The links point through the nodes in order, and the tail pointer to the last link; the list
starts at the first node unless it was cleared with nodes already there. -/
structure Linked (h : IntHeap) (before since : List IntEntry) : Prop where
  nodes : h.nodes = chained (before ++ since)
  head : h.head = if before ++ since = [] then none else some ((before ++ since).length - 1)
  list : h.list = if before = [] ∧ since ≠ [] then some 0 else none

theorem linked_start : Linked IntHeap.start [] [] := ⟨rfl, rfl, rfl⟩

variable {before since : List IntEntry}

theorem Linked.init (hl : Linked h before since) : Linked h.init (before ++ since) [] := by
  refine ⟨?_, ?_, ?_⟩
  · rw [List.append_nil]
    exact hl.nodes
  · rw [List.append_nil]
    exact hl.head
  · simp [IntHeap.init]

theorem Linked.add (hl : Linked h before since) (e : IntEntry) :
    Linked (h.add e) before (since ++ [e]) := by
  have hlen : h.nodes.length = (before ++ since).length := by rw [hl.nodes, chained_length]
  by_cases hnil : before ++ since = []
  · obtain ⟨rfl, rfl⟩ := List.append_eq_nil_iff.1 hnil
    have hhead : h.head = none := hl.head
    have hnodes : h.nodes = [] := hl.nodes
    refine ⟨?_, ?_, ?_⟩
    · simp only [IntHeap.add, IntHeap.link, hhead, hnodes]
      rfl
    · simp [IntHeap.add, hnodes]
    · simp [IntHeap.add, IntHeap.link, hhead, hnodes]
  · have hhead : h.head = some ((before ++ since).length - 1) := by rw [hl.head, if_neg hnil]
    refine ⟨?_, ?_, ?_⟩
    · simp only [IntHeap.add, IntHeap.link, hhead]
      rw [hlen, hl.nodes, ← List.append_assoc]
      exact chained_snoc hnil e
    · simp only [IntHeap.add, hlen]
      simp
    · simp only [IntHeap.add, IntHeap.link, hhead]
      rw [hl.list]
      by_cases hb : before = []
      · have hs : since ≠ [] := fun hs => hnil (by rw [hb, hs]; rfl)
        simp [hb, hs]
      · simp [hb]

theorem linked_after (ops : List ListOp) :
    Linked (heapAfter ops) (addedAround ops).1 (addedAround ops).2 := by
  induction ops using List.reverseRecOn with
  | nil => exact linked_start
  | append_singleton ops o ih =>
    rw [heapAfter, addedAround_snoc, List.foldl_append]
    cases o with
    | add e => exact ih.add e
    | init => exact ih.init

/-! ### Walking the list -/

theorem walk_chained (es : List IntEntry) (n : Nat) : ∀ i, i + n = es.length →
    IntHeap.walk (chained es) n (if n = 0 then none else some i) = some (es.drop i) := by
  induction n with
  | zero =>
    intro i hi
    rw [if_pos rfl, List.drop_of_length_le (by omega)]
    rfl
  | succ n ih =>
    intro i hi
    have hlt : i < es.length := by omega
    rw [if_neg (Nat.succ_ne_zero n), IntHeap.walk, chained_get, List.getElem?_eq_getElem hlt]
    simp only [Option.map_some]
    have hnext : (if i + 1 < es.length then some (i + 1) else none) =
        if n = 0 then none else some (i + 1) := by
      by_cases h0 : n = 0
      · rw [if_neg (by omega), if_pos h0]
      · rw [if_pos (by omega), if_neg h0]
    rw [hnext, ih (i + 1) (by omega), Option.map_some, ← List.drop_eq_getElem_cons hlt]

/-- `mpINT_find` finds the first match among what the list reaches. -/
theorem mpINTFindLoop_walk (nodes : List IntNode) (bus dev pin : UInt8) (n : Nat) :
    ∀ (p : Option Nat) (l : List IntEntry), IntHeap.walk nodes n p = some l →
      mpINTFindLoop nodes bus dev pin n p = some (l.find? (IntEntry.hasKey bus dev pin)) := by
  induction n with
  | zero =>
    intro p l h
    cases p with
    | none =>
      cases h
      rfl
    | some i => cases h
  | succ n ih =>
    intro p l h
    cases p with
    | none =>
      cases h
      rfl
    | some i =>
      rw [IntHeap.walk] at h
      rw [mpINTFindLoop]
      cases hn : nodes[i]? with
      | none =>
        rw [hn] at h
        cases h
      | some node =>
        rw [hn] at h
        obtain ⟨l', hl', rfl⟩ := Option.map_eq_some_iff.1 h
        simp only [List.find?_cons]
        by_cases hk : node.entry.hasKey bus dev pin = true
        · simp [hk]
        · simp [hk, ih _ _ hl']

/-- The list is empty once it has been cleared with entries in it. -/
theorem entries_after (ops : List ListOp) : (heapAfter ops).entries =
    some (if (addedAround ops).1 = [] then (addedAround ops).2 else []) := by
  have hl := linked_after ops
  rw [IntHeap.entries, hl.nodes, hl.list, chained_length]
  by_cases hb : (addedAround ops).1 = []
  · rw [hb, List.nil_append, if_pos rfl]
    have hw := walk_chained (addedAround ops).2 (addedAround ops).2.length 0 (Nat.zero_add _)
    rw [List.drop_zero] at hw
    by_cases hs : (addedAround ops).2 = []
    · rw [hs]
      rfl
    · rw [if_pos ⟨rfl, hs⟩]
      rwa [if_neg (by simpa using hs)] at hw
  · rw [if_neg fun h => hb h.1, if_neg hb]
    cases ((addedAround ops).1 ++ (addedAround ops).2).length <;> rfl

/-- The list is right exactly if nothing was added since the last `mptable_init`, or nothing was
added before it. -/
theorem intList_right_iff (ops : List ListOp) :
    ListRight ops ↔ (addedAround ops).2 = [] ∨ (addedAround ops).1 = [] := by
  have he := entries_after ops
  constructor
  · rintro ⟨h, -⟩
    rw [he, Option.some.injEq] at h
    by_cases hb : (addedAround ops).1 = []
    · exact Or.inr hb
    · rw [if_neg hb] at h
      exact Or.inl h.symm
  · intro h
    have hes : (heapAfter ops).entries = some (addedAround ops).2 := by
      rw [he]
      rcases h with h | h
      · rw [h, ite_self]
      · rw [if_pos h]
    exact ⟨hes, fun bus dev pin => mpINTFindLoop_walk _ bus dev pin _ _ _ hes⟩

/-- The same calls on the globals of the table builder. -/
def ListOp.onMp (prodId : Vector UInt8 12) (lapicBase : UInt32) (s : Mp) : ListOp → Mp
  | add e => mpINTAdd e s
  | init => mptableInit prodId lapicBase s

/-- The globals of the table builder hold what the chain of nodes reaches. -/
theorem mpINTList_chain (prodId : Vector UInt8 12) (lapicBase : UInt32) (ops : List ListOp)
    {s : Mp} (hnil : s.mpINTList = []) (hdet : s.detached = false) :
    (heapAfter ops).entries =
      some (ops.foldl (ListOp.onMp prodId lapicBase) s).mpINTList := by
  have hall : (ops.foldl (ListOp.onMp prodId lapicBase) s).mpINTList =
        (if (addedAround ops).1 = [] then (addedAround ops).2 else []) ∧
      (ops.foldl (ListOp.onMp prodId lapicBase) s).detached = !(addedAround ops).1.isEmpty := by
    induction ops using List.reverseRecOn with
    | nil => exact ⟨hnil, hdet⟩
    | append_singleton ops o ih =>
      obtain ⟨hlist, hd⟩ := ih
      rw [addedAround_snoc, List.foldl_append]
      generalize List.foldl (ListOp.onMp prodId lapicBase) s ops = t at hlist hd
      generalize addedAround ops = p at hlist hd
      obtain ⟨before, since⟩ := p
      cases o with
      | add e =>
        by_cases hb : before = []
        · subst hb
          simp [ListOp.onMp, ListOp.around, mpINTAdd, hd, hlist]
        · simp [ListOp.onMp, ListOp.around, mpINTAdd, hd, hlist, hb]
      | init =>
        cases before <;> cases since <;> simp [ListOp.onMp, ListOp.around, mptableInit, hd, hlist]
  rw [entries_after, hall.1]

/-- An interrupt of a disk channel. -/
def diskInt : IntEntry where
  entry := .ioInt
  type := 0
  flags := 5
  srcBus := 0xff
  srcIrq := 14
  destId := 0
  destInput := 14

/-- Added, the tables set up again, and added anew: it is not in the list. -/
theorem intList_loses : ¬ ListRight [.add diskInt, .init, .add diskInt] := by
  rintro ⟨h, -⟩
  have hempty : (heapAfter [.add diskInt, .init, .add diskInt]).entries = some [] := rfl
  rw [hempty] at h
  have hsince : (addedAround [.add diskInt, .init, .add diskInt]).2 = [diskInt] := rfl
  rw [hsince] at h
  cases h

end Mptable
