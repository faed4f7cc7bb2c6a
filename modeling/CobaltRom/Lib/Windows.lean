import CobaltRom.Lib.Forest

/-! Blocks of addresses at the nodes of a forest, and a window at each node that should let
through the blocks at and below the node, and no others. -/
namespace Windows

/-- A block by its base and size. -/
abbrev Block := Nat × Nat

/-- The blocks at a node, and its window from `lo` to `hi`, closed when `hi < lo`. -/
structure Part where
  blocks : List Block
  lo : Nat
  hi : Nat

def Apart (x y : Block) : Prop := x.1 + x.2 ≤ y.1 ∨ y.1 + y.2 ≤ x.1

/-- The block lies between `lo` and `hi`. -/
def Between (lo hi : Nat) (x : Block) : Prop := lo ≤ x.1 ∧ x.1 + x.2 ≤ hi

/-- The block lies below `lo` or from `hi` on. -/
def Outside (lo hi : Nat) (x : Block) : Prop := x.1 + x.2 ≤ lo ∨ hi ≤ x.1

def Part.letsIn (p : Part) (x : Block) : Prop := p.lo ≤ x.1 ∧ x.1 + x.2 ≤ p.hi + 1

/-- No address of the block is in the window. -/
def Part.keepsOut (p : Part) (x : Block) : Prop := p.hi < p.lo ∨ x.1 + x.2 ≤ p.lo ∨ p.hi < x.1

def blocks : Forest Part → List Block
  | .nil => []
  | .node p kids peer => p.blocks ++ blocks kids ++ blocks peer

/-- Each window lets in what is at and below its node, and keeps out the other blocks of the
forest and those in `out`. -/
def Exact (out : List Block) : Forest Part → Prop
  | .nil => True
  | .node p kids peer =>
    ((∀ x, x ∈ p.blocks ++ blocks kids → p.letsIn x) ∧
      (∀ x, x ∈ out ++ blocks peer → p.keepsOut x)) ∧
    Exact (out ++ p.blocks ++ blocks peer) kids ∧ Exact (out ++ p.blocks ++ blocks kids) peer

/-- A forest whose blocks are apart and between `lo` and `hi`, with exact windows that are there
too. -/
structure Nested (lo hi : Nat) (f : Forest Part) : Prop where
  between : ∀ x, x ∈ blocks f → Between lo hi x
  apart : (blocks f).Pairwise Apart
  windows : ∀ p, p ∈ f.toList → p.hi < p.lo ∨ (lo ≤ p.lo ∧ p.hi < hi)
  exact : ∀ out, (∀ x, x ∈ out → Outside lo hi x) → Exact out f

variable {lo mid hi top : Nat} {p : Part} {kids peer : Forest Part} {x y : Block}
  {l l' : List Block}

theorem Between.mono (h : Between mid hi x) (hlo : lo ≤ mid) (hhi : hi ≤ top) :
    Between lo top x := ⟨hlo.trans h.1, h.2.trans hhi⟩

theorem Between.outside (h : Between lo mid x) : Outside mid hi x := Or.inl h.2

theorem Between.outside_below (h : Between mid hi x) : Outside lo mid x := Or.inr h.1

theorem Outside.mono (h : Outside lo top x) (hlo : lo ≤ mid) (hhi : hi ≤ top) :
    Outside mid hi x := h.imp (fun h => h.trans hlo) (fun h => hhi.trans h)

theorem apart_of_between (hx : Between lo mid x) (hy : Between mid hi y) : Apart x y :=
  Or.inl (hx.2.trans hy.1)

theorem pairwise_apart_append (h : l.Pairwise Apart) (h' : l'.Pairwise Apart)
    (hl : ∀ x, x ∈ l → Between lo mid x) (hl' : ∀ x, x ∈ l' → Between mid hi x) :
    (l ++ l').Pairwise Apart :=
  List.pairwise_append.mpr ⟨h, h', fun x hx y hy => apart_of_between (hl x hx) (hl' y hy)⟩

theorem nested_nil (lo hi : Nat) : Nested lo hi .nil :=
  ⟨by simp [blocks], List.Pairwise.nil, by simp [Forest.toList], fun _ _ => trivial⟩

/-- From the top down: the peers of a node, its kids, then its own blocks. The window of the node
is closed, with nothing to let in, or reaches down to `lo` and up to the peers. -/
theorem Nested.node (hpeer : Nested top hi peer) (hkids : Nested mid top kids)
    (hown : ∀ x, x ∈ p.blocks → Between lo mid x) (hapart : p.blocks.Pairwise Apart)
    (hlo : lo ≤ mid) (hmid : mid ≤ top) (htop : top ≤ hi)
    (hwin : (p.hi < p.lo ∧ p.blocks = [] ∧ blocks kids = []) ∨
      (p.lo = lo ∧ p.hi < top ∧ ∀ x, x ∈ p.blocks ++ blocks kids → x.1 + x.2 ≤ p.hi + 1)) :
    Nested lo hi (.node p kids peer) := by
  have hbelow : ∀ x, x ∈ p.blocks ++ blocks kids → Between lo top x := by
    intro x hx
    rcases List.mem_append.mp hx with hx | hx
    · exact (hown x hx).mono le_rfl hmid
    · exact (hkids.between x hx).mono hlo le_rfl
  refine ⟨fun x hx => ?_, ?_, fun q hq => ?_, fun out hout => ?_⟩
  · rcases List.mem_append.mp hx with hx | hx
    · exact (hbelow x hx).mono le_rfl htop
    · exact (hpeer.between x hx).mono (hlo.trans hmid) le_rfl
  · have h := pairwise_apart_append hapart hkids.apart hown hkids.between
    exact pairwise_apart_append h hpeer.apart hbelow hpeer.between
  · simp only [Forest.toList, List.mem_cons, List.mem_append] at hq
    rcases hq with rfl | hq | hq
    · rcases hwin with ⟨h, -⟩ | ⟨h₁, h₂, -⟩
      · exact Or.inl h
      · exact Or.inr ⟨h₁.ge, by omega⟩
    · exact (hkids.windows q hq).imp_right fun h => ⟨hlo.trans h.1, h.2.trans_le htop⟩
    · exact (hpeer.windows q hq).imp_right fun h => ⟨(hlo.trans hmid).trans h.1, h.2⟩
  · refine ⟨⟨fun x hx => ?_, fun x hx => ?_⟩, hkids.exact _ fun x hx => ?_,
      hpeer.exact _ fun x hx => ?_⟩
    · rcases hwin with ⟨-, h₁, h₂⟩ | ⟨h₁, -, h₂⟩
      · simp [h₁, h₂] at hx
      · exact ⟨h₁.le.trans (hbelow x hx).1, h₂ x hx⟩
    · rcases hwin with ⟨h, -⟩ | ⟨h₁, h₂, -⟩
      · exact Or.inl h
      refine Or.inr ?_
      rcases List.mem_append.mp hx with hx | hx
      · rcases hout x hx with h | h
        · exact Or.inl (h.trans h₁.ge)
        · exact Or.inr (by omega)
      · have := (hpeer.between x hx).1
        exact Or.inr (by omega)
    · simp only [List.mem_append] at hx
      rcases hx with (hx | hx) | hx
      · exact (hout x hx).mono hlo htop
      · exact (hown x hx).outside
      · exact (hpeer.between x hx).outside_below
    · simp only [List.mem_append] at hx
      rcases hx with (hx | hx) | hx
      · exact (hout x hx).mono (hlo.trans hmid) le_rfl
      · exact (hbelow x (List.mem_append_left _ hx)).outside
      · exact (hbelow x (List.mem_append_right _ hx)).outside

end Windows
