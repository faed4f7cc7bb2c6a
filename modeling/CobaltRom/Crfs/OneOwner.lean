import CobaltRom.Crfs.Proper

/-! Every block in use has one use, and the block map marks exactly the blocks in use. -/
namespace Crfs
open WriteBack SlotTree LinkChain

/-- Block `b` comes `n`-th in the chain of file blocks that starts at `a`. -/
inductive ChainPos (val : BlockId → Block) : BlockId → Nat → BlockId → Prop where
  | here {a : BlockId} : a ≠ 0 → ChainPos val a 0 a
  | next {a b : BlockId} {n : Nat} : a ≠ 0 → ChainPos val (val a).fbNext n b →
      ChainPos val a (n + 1) b

/-- What a block can be used for: an inode table, a directory, a place in a file. -/
inductive Use where
  | table (k : Nat)
  | dir (i : InodeId)
  | file (i : InodeId) (n : Nat)

/-- The tree on the volume uses block `b` for `u`. -/
def Vol.Uses (σ : Vol) : Use → BlockId → Prop
  | .table k, b => k < crfsSbVtableLen ∧ σ.glob.superBlock.sbVtable k = b ∧ b ≠ 0
  | .dir i, b => Desc σ.img.kids σ.img.root i ∧ σ.img.isDir i = true ∧ (σ.img.ino i).inFirst = b
  | .file i n, b => Desc σ.img.kids σ.img.root i ∧ σ.img.isDir i = false ∧
      ChainPos σ.val (σ.img.ino i).inFirst n b

variable {σ : Vol} {s : Shape} {t : Session} {a b : BlockId} {i : InodeId} {l : List BlockId}
  {n : Nat}
  {val : BlockId → Block} {u u' : Use}

theorem IsChain.chainPos_iff (h : IsChain val a l) : ChainPos val a n b ↔ l[n]? = some b := by
  induction l generalizing a n with
  | nil =>
    obtain rfl : a = 0 := h
    constructor
    · rintro (h0 | ⟨h0, -⟩) <;> exact absurd rfl h0
    · intro hn
      simp at hn
  | cons c l ih =>
    obtain ⟨rfl, h0, hl⟩ := h
    cases n with
    | zero =>
      rw [List.getElem?_cons_zero, Option.some.injEq]
      constructor
      · rintro ⟨-⟩
        rfl
      · rintro rfl
        exact .here h0
    | succ n =>
      rw [List.getElem?_cons_succ, ← ih hl]
      constructor
      · rintro (_ | ⟨-, hn⟩)
        exact hn
      · exact .next h0

/-- The owner of a block a use belongs to. -/
def Use.owner : Use → Owner
  | .table k => .itable k
  | .dir i => .dir i
  | .file i _ => .file i

theorem Inv.desc_live (h : Inv σ s) (hd : Desc σ.img.kids σ.img.root i) : s.live i :=
  h.tree.tree.desc_live h.tree.live_root hd

theorem Mounted.own_of_uses (h : Mounted σ s) (hu : σ.Uses u b) : s.own b = some u.owner := by
  cases u with
  | table k =>
    obtain ⟨hk, hb, h0⟩ := hu
    refine (h.inv.owned.ownTable k b).mpr ⟨?_, hb, h0⟩
    simp only [crfsSbVtableLen] at hk
    omega
  | dir i =>
    obtain ⟨hd, hdir, hb⟩ := hu
    exact (h.inv.owned.ownDir i b).mpr ⟨h.inv.desc_live hd, hdir, hb⟩
  | file i n =>
    obtain ⟨hd, hdir, hp⟩ := hu
    obtain ⟨l, hl, hown⟩ := h.exact.chain i (h.inv.desc_live hd) hdir
    exact (hown b).mpr (List.mem_of_getElem? ((IsChain.chainPos_iff hl).mp hp))

/-- A block has at most one use. -/
theorem Mounted.uses_unique (h : Mounted σ s) (hu : σ.Uses u b) (hu' : σ.Uses u' b) : u = u' := by
  have hown := h.own_of_uses hu
  rw [h.own_of_uses hu', Option.some.injEq] at hown
  cases u with
  | table k =>
    cases u' with
    | table k' => rw [Owner.itable.inj hown]
    | dir i' => cases hown
    | file i' n' => cases hown
  | dir i =>
    cases u' with
    | table k' => cases hown
    | dir i' => rw [Owner.dir.inj hown]
    | file i' n' => cases hown
  | file i n =>
    cases u' with
    | table k' => cases hown
    | dir i' => cases hown
    | file i' n' =>
      obtain rfl := Owner.file.inj hown
      obtain ⟨hd, hdir, hp⟩ := hu
      obtain ⟨-, -, hp'⟩ := hu'
      obtain ⟨l, hl, -⟩ := h.exact.chain _ (h.inv.desc_live hd) hdir
      rw [Vol.img_val] at hl
      rw [IsChain.chainPos_iff hl] at hp hp'
      obtain ⟨hlt, -⟩ := List.getElem?_eq_some_iff.mp hp
      rw [(List.getElem?_inj hlt hl.nodup).mp (hp.trans hp'.symm)]

/-- The block map has exactly the used blocks and the two slots. -/
theorem Mounted.isset_iff_uses (h : Mounted σ s) (b : BlockId) :
    σ.bm.isset b.toNat = true ↔ (∃ u, σ.Uses u b) ∨ b = 0 ∨ b = 16 := by
  rw [h.inv.blocks.exact]
  refine or_congr_left ⟨?_, ?_⟩
  · intro hown
    cases ho : s.own b with
    | none => exact absurd ho hown
    | some o =>
      cases o with
      | itable k =>
        obtain ⟨hk, hb, h0⟩ := (h.inv.owned.ownTable k b).mp ho
        exact ⟨.table k, h.exact.tables k hk (by rw [hb]; exact h0), hb, h0⟩
      | dir i =>
        obtain ⟨hi, hd, hf⟩ := (h.inv.owned.ownDir i b).mp ho
        exact ⟨.dir i, h.inv.tree.tree.reach i hi, hd, hf⟩
      | file i =>
        obtain ⟨hi, hd, -⟩ := h.inv.owned.ownFile i b ho
        obtain ⟨l, hl, hown'⟩ := h.exact.chain i hi hd
        obtain ⟨n, hn⟩ := List.getElem?_of_mem ((hown' b).mp ho)
        exact ⟨.file i n, h.inv.tree.tree.reach i hi, hd, (IsChain.chainPos_iff hl).mpr hn⟩
      | held => exact absurd ho (h.exact.held b)
  · rintro ⟨u, hu⟩
    rw [h.own_of_uses hu]
    simp

/-- In every state of a proper run on a formatted device, a block has at most one use, and it is
marked in the block map exactly if it has one or is a slot of the super block. -/
theorem blocks_used_once {size : UInt32} (hsize : GoodSize size n) (disk : BlockId → Block)
    {c : Machine} (hc : crfsInit (crfsMkfs size (boot disk)) = some (true, c))
    (hrun : Relation.ReflTransGen Session.ProperStep ⟨c, fun _ => none⟩ t) (b : BlockId) :
    (b ≠ 0 → b ≠ 16 → ∀ u u', t.vol.Uses u b → t.vol.Uses u' b → u = u') ∧
      (t.vol.bm.isset b.toNat = true ↔ (∃ u, t.vol.Uses u b) ∨ b = 0 ∨ b = 16) := by
  obtain ⟨s, h⟩ := (sound_start hsize disk hc).run hrun
  exact ⟨fun _ _ u u' hu hu' => h.mounted.uses_unique hu hu', h.mounted.isset_iff_uses b⟩

/-- They have after the run on the small device: a file, a directory with a file in it, two
blocks of content and a removal. -/
theorem blocks_used_once_run : ∃ (c : Machine) (t : Session),
    crfsInit (crfsMkfs 98304 (boot fun _ => zeroBlock)) = some (true, c) ∧
      Relation.ReflTransGen (Session.StepOf smallCalls) ⟨c, fun _ => none⟩ t ∧
      t.vol = removedVol ∧
      ∀ b : BlockId, (b ≠ 0 → b ≠ 16 → ∀ u u', t.vol.Uses u b → t.vol.Uses u' b → u = u') ∧
        (t.vol.bm.isset b.toNat = true ↔ (∃ u, t.vol.Uses u b) ∨ b = 0 ∨ b = 16) := by
  obtain ⟨c, t, hc, hrun, hvol⟩ := small_run
  have hproper := Relation.ReflTransGen.mono (fun _ _ hs => Session.StepOf.proper hs) _ _ hrun
  exact ⟨c, t, hc, hrun, hvol,
    fun b => blocks_used_once goodSize_small (fun _ => zeroBlock) hc hproper b⟩

end Crfs
