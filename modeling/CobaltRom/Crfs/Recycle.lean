import CobaltRom.Crfs.Session

/-! What a flush gives back: the numbers `freemap_next` can hand out afterwards. -/
namespace Crfs
open WriteBack WriteBack.Prog SlotTree Bitmap

/-- The map after `n` calls of `freemap_next`. -/
def freemapDraw : Nat → Freemap → Freemap
  | 0, m => m
  | n + 1, m => freemapDraw n (freemapNext m).2

namespace Freemap

variable {m : Freemap} {k : Nat}

/-- One of the next calls of `freemap_next` returns `k`. -/
def Offers (m : Freemap) (k : Nat) : Prop := ∃ n, (freemapNext (freemapDraw n m)).1 = k

/-- The search hands out the free numbers in order, so each has its turn. -/
theorem offers_of_free (j : Nat) : ∀ m : Freemap, m.Ok → k < m.limit → m.blocked k = false →
    (∀ i, i + j < k → m.blocked i = true) → m.Offers k := by
  induction j with
  | zero =>
    intro m hok hk hfree hbelow
    rcases freemapNext_spec hok with ⟨n, hn, ht⟩ | ⟨-, hall, -⟩
    · have hnk : n = k := by
        rcases Nat.lt_trichotomy n k with hlt | heq | hgt
        · have := hbelow n (by omega)
          rw [ht.free] at this
          cases this
        · exact heq
        · have := ht.least k hgt
          rw [hfree] at this
          cases this
      exact ⟨0, hnk ▸ hn⟩
    · rw [hall k hk] at hfree
      cases hfree
  | succ j ih =>
    intro m hok hk hfree hbelow
    rcases freemapNext_spec hok with ⟨n, hn, ht⟩ | ⟨-, hall, -⟩
    · by_cases hnk : n = k
      · exact ⟨0, hnk ▸ hn⟩
      · have hlt : n < k := by
          by_contra hge
          have := ht.least k (by omega)
          rw [hfree] at this
          cases this
        obtain ⟨r, hr⟩ := ih (freemapNext m).2 ht.ok (by rw [ht.limit_eq]; exact hk)
          (by rw [ht.blocked, hfree, decide_eq_false (fun he => hnk he.symm)]; rfl) (by
            intro i hi
            rw [ht.blocked]
            by_cases hin : i < n
            · rw [ht.least i hin, Bool.true_or]
            · by_cases he : i = n
              · rw [decide_eq_true he, Bool.or_true]
              · exfalso
                have hn1 : n + (j + 1) < k := by omega
                have := hbelow n hn1
                rw [ht.free] at this
                cases this)
        exact ⟨r + 1, hr⟩
    · rw [hall k hk] at hfree
      cases hfree

theorem Fresh.blocked (h : m.Fresh) (k : Nat) : m.blocked k = m.isset k := by
  rw [Freemap.blocked, h.freed, mem_replicate, Bool.or_false, isset]

theorem Fresh.offers (h : m.Fresh) (hok : m.Ok) (hk : k < m.limit) (hfree : m.isset k = false) :
    m.Offers k :=
  offers_of_free k m hok hk (by rw [h.blocked, hfree]) (fun i hi => by omega)

theorem fresh_flush (m : Freemap) : (freemapFlush m).Fresh := ⟨rfl, rfl⟩

/-- With a free number in the first byte the search does not leave it. -/
theorem Fresh.next (h : m.Fresh) (hfree : ∃ k < 8, m.blocked k = false) :
    (freemapNext m).2.Fresh := by
  obtain ⟨k, hk, hb⟩ := hfree
  rw [freemapNext, h.cur, Nat.sub_zero]
  cases hs : m.fmMapsize with
  | zero => exact ⟨h.freed, h.cur⟩
  | succ n =>
    have hbit := blocked_byte m 0 k hk
    rw [Nat.zero_mul, Nat.zero_add, hb] at hbit
    have hne : m.fmMap.getD 0 0 ||| m.fmFreed.getD 0 0 ≠ 0xff := by
      intro hff
      rw [full_iff.mp hff k hk] at hbit
      cases hbit
    simp only [freemapScan]
    rw [if_pos hne]
    cases hf : (List.range 8).find? fun j =>
        (m.fmMap.getD 0 0 ||| m.fmFreed.getD 0 0) &&& mask j == 0 with
    | some j => exact ⟨h.freed, rfl⟩
    | none =>
      exfalso
      have := List.find?_eq_none.mp hf k (List.mem_range.mpr hk)
      rw [beq_iff_eq, and_mask_eq_zero hk] at this
      exact this hbit.symm

end Freemap

variable {σ τ : Vol} {s : Shape} {t t' : Session} {c : Machine} {p : Name}

/-! ### Calls and the inode map -/

theorem blockStable_im (m : Freemap) : BlockStable fun g => g.inodeFreemap = m :=
  ⟨fun _ h => h, fun _ _ h => h, fun _ _ _ h => h⟩

theorem nextInode_im (σ : Vol) : (nextInode.eval σ).2.glob.inodeFreemap = (freemapNext σ.im).2 :=
  rfl

/-- Creating draws at most one inode number, and none if it stops while looking. -/
theorem crfsCreate_im (σ : Vol) (p : Name) :
    ((∃ e, σ.createAt p = .error e) ∧ (crfsCreate p).eval σ = (((crfsCreate p).eval σ).1, σ)) ∨
    ((crfsCreate p).eval σ).2.glob.inodeFreemap = (freemapNext σ.im).2 := by
  cases hat : σ.createAt p with
  | error e =>
    left
    rw [crfsCreate_eval, hat]
    exact ⟨⟨e, rfl⟩, rfl⟩
  | ok r =>
    obtain ⟨d, nm, k⟩ := r
    right
    rw [crfsCreate_eval, hat]
    exact keeps_createInum (blockStable_im _) _ _ _ _ _ _ (nextInode_im σ)

theorem crfsMkdir_im (σ : Vol) (p : Name) :
    ((∃ e, σ.mkdirAt p = .error e) ∧ (crfsMkdir p).eval σ = (((crfsMkdir p).eval σ).1, σ)) ∨
    ((crfsMkdir p).eval σ).2.glob.inodeFreemap = (freemapNext σ.im).2 := by
  cases hat : σ.mkdirAt p with
  | error e =>
    left
    rw [crfsMkdir_eval, hat]
    exact ⟨⟨e, rfl⟩, rfl⟩
  | ok r =>
    obtain ⟨d, nm, k⟩ := r
    right
    rw [crfsMkdir_eval, hat]
    exact keeps_mkdirInum (blockStable_im _) _ _ _ _ _ _ _
      (keeps_nextBlock (blockStable_im _) _ (nextInode_im σ))

/-! ### Runs that use up no inode number -/

/-- The calls of a run of creations, removals and flushes. A creation stops while
looking or finds a number below 8; a removal finds nothing to remove. -/
def Spares (σ : Vol) : Call → Prop
  | .create p => (∃ e, σ.createAt p.name = .error e) ∨ ∃ k < 8, σ.im.blocked k = false
  | .mkdir p => (∃ e, σ.mkdirAt p.name = .error e) ∨ ∃ k < 8, σ.im.blocked k = false
  | .remove p => ∃ e, σ.victim p.name false = .error e
  | .rmdir p => ∃ e, σ.victim p.name true = .error e
  | .flush => True
  | _ => False

def SparingStep (t t' : Session) : Prop := ∃ a r, t.step a = some (r, t') ∧ Spares t.vol a

/-- What such runs keep. A failed search may have left numbers behind, so the tree
accounts for all of them only if there was none. -/
structure Sparing (t : Session) : Prop where
  coherent : t.mach.store.Coherent
  which : t.mach.glob.crfsWhichSuper = 0 ∨ t.mach.glob.crfsWhichSuper = 1
  inums : t.vol.im.Fresh
  exact : ¬ t.mach.glob.Full → ∃ s, Inv t.vol s ∧ Exact t.vol.img s

theorem exec_which {α : Type} {q : FsM α}
    (hq : ∀ g, Keeps (SameSuper g) q) (c : Machine) :
    (q.exec c).2.glob.crfsWhichSuper = c.glob.crfsWhichSuper := by
  have hk := hq c.glob c.vol (SameSuper.refl _)
  rw [← (exec_vol q c).2] at hk
  exact hk.which

/-- Creating keeps the invariant of a sparing run. -/
theorem Sparing.created (h : Sparing t) {q : FsM (Except Errno Unit)}
    (hsuper : ∀ g, Keeps (SameSuper g) q) (hfull : Keeps Globals.Full q)
    (him : (Vol.im (q.eval t.vol).2).Fresh)
    (hexact : ∀ s, Inv t.vol s → Exact t.vol.img s → ¬ (q.eval t.vol).2.glob.Full →
      ∃ s', Inv (q.eval t.vol).2 s' ∧ Exact (Vol.img (q.eval t.vol).2) s') :
    Sparing (t.after (q.exec t.mach).2) := by
  have hvol : (t.after (q.exec t.mach).2).vol = (q.eval t.vol).2 := (exec_vol q t.mach).2
  have hglob : (q.exec t.mach).2.glob = (q.eval t.vol).2.glob := congrArg Flat.glob hvol
  refine ⟨exec_coherent q h.coherent, ?_, ?_, ?_⟩
  · change (q.exec t.mach).2.glob.crfsWhichSuper = 0 ∨ (q.exec t.mach).2.glob.crfsWhichSuper = 1
    rw [exec_which hsuper]
    exact h.which
  · rw [hvol]
    exact him
  · intro hf
    change ¬ (q.exec t.mach).2.glob.Full at hf
    rw [hglob] at hf
    obtain ⟨s, hi, he⟩ := h.exact fun hf' => hf (hfull t.vol hf')
    rw [hvol]
    exact hexact s hi he hf

theorem Took.lt_of_free {m m' : Freemap} {x k : Nat} (ht : m.Took x m')
    (hfree : m.blocked k = false) : x ≤ k := by
  by_contra hlt
  rw [ht.least k (by omega)] at hfree
  cases hfree

theorem Sparing.create (h : Sparing t) {p : Path} (hs : Spares t.vol (.create p)) :
    Sparing (t.after ((crfsCreate p.name).exec t.mach).2) := by
  refine h.created (fun g => keeps_crfsCreate (stable_sameSuper g) _)
    (keeps_crfsCreate stable_full _) ?_ ?_
  · rcases crfsCreate_im t.vol p.name with ⟨-, he⟩ | him
    · rw [he]
      exact h.inums
    · rcases hs with hs | hs
      · obtain ⟨e, he⟩ := hs
        rw [crfsCreate_eval, he]
        exact h.inums
      · have := h.inums.next hs
        rwa [← him] at this
  · intro s hi he hf
    rcases crfsCreate_spec hi p.nul hf with ⟨e, hr⟩ |
      ⟨d, nm, k, x, τ, s', hr, -, -, hl, -, m', ht⟩
    · rw [hr]
      exact ⟨s, hi, he⟩
    · rcases hs with ⟨e, hat⟩ | ⟨j, hj, hfree⟩
      · rw [crfsCreate_eval, hat] at hr
        cases hr
      · have hx := Took.lt_of_free ht hfree
        rw [hr]
        exact ⟨s', hl.inv, hl.exact hi he (by omega)⟩

theorem Sparing.mkdir (h : Sparing t) {p : Path} (hs : Spares t.vol (.mkdir p)) :
    Sparing (t.after ((crfsMkdir p.name).exec t.mach).2) := by
  refine h.created (fun g => keeps_crfsMkdir (stable_sameSuper g) _)
    (keeps_crfsMkdir stable_full _) ?_ ?_
  · rcases crfsMkdir_im t.vol p.name with ⟨-, he⟩ | him
    · rw [he]
      exact h.inums
    · rcases hs with hs | hs
      · obtain ⟨e, he⟩ := hs
        rw [crfsMkdir_eval, he]
        exact h.inums
      · have := h.inums.next hs
        rwa [← him] at this
  · intro s hi he hf
    rcases crfsMkdir_spec hi p.nul hf with ⟨e, hr⟩ | ⟨d, nm, k, x, τ, s', hr, -, hl, -, m', ht⟩
    · rw [hr]
      exact ⟨s, hi, he⟩
    · rcases hs with ⟨e, hat⟩ | ⟨j, hj, hfree⟩
      · rw [crfsMkdir_eval, hat] at hr
        cases hr
      · have hx := Took.lt_of_free ht hfree
        rw [hr]
        exact ⟨s', hl.inv, hl.exact hi he (by omega)⟩

theorem Sparing.flush (h : Sparing t) : Sparing (t.after (cacheFlush t.mach)) := by
  refine ⟨cacheFlush_coherent _, ?_, h.inums, ?_⟩
  · change (if t.mach.store.cache = [] then _ else _) = _ ∨
      (if t.mach.store.cache = [] then _ else _) = _
    split
    · exact h.which
    · rcases h.which with hw | hw
      · rw [hw]
        exact Or.inr (by decide)
      · rw [hw]
        exact Or.inl (by decide)
  · intro hf
    obtain ⟨s, hi, he⟩ := h.exact hf
    have hag := hi.flush_agree h.coherent h.which
    exact ⟨s, hi.flush h.coherent h.which, hag.exact hi.owned he⟩

/-- A call that changes nothing on the volume. -/
theorem Sparing.refused (h : Sparing t) {q : FsM (Option (Except Errno Unit))}
    (hq : (q.eval t.vol).2 = t.vol) : Sparing (t.after (q.exec t.mach).2).forget := by
  have hvol : (t.after (q.exec t.mach).2).forget.vol = t.vol := ((exec_vol q t.mach).2).trans hq
  have hglob : (q.exec t.mach).2.glob = t.mach.glob := congrArg Flat.glob hvol
  refine ⟨exec_coherent q h.coherent, ?_, ?_, ?_⟩
  · change (q.exec t.mach).2.glob.crfsWhichSuper = 0 ∨ (q.exec t.mach).2.glob.crfsWhichSuper = 1
    rw [hglob]
    exact h.which
  · rw [hvol]
    exact h.inums
  · rw [hvol]
    intro hf
    change ¬ (q.exec t.mach).2.glob.Full at hf
    rw [hglob] at hf
    exact h.exact hf

theorem rmFile_refused {doDirs : Bool} {e : Errno} (hv : σ.victim p doDirs = .error e) :
    (rmFile p doDirs).eval σ = (some (.error e), σ) := by
  rw [rmFile_eval, hv]

theorem Sparing.step (h : Sparing t) (hs : SparingStep t t') : Sparing t' := by
  obtain ⟨a, r, hstep, hsp⟩ := hs
  cases a with
  | create p =>
    cases hstep
    exact h.create hsp
  | mkdir p =>
    cases hstep
    exact h.mkdir hsp
  | remove p =>
    obtain ⟨e, hv⟩ := hsp
    have he := rmFile_refused hv
    obtain ⟨a, -, ha⟩ := Option.map_eq_some_iff.mp hstep
    cases ha
    exact h.refused (q := crfsRemove p.name) (congrArg Prod.snd he)
  | rmdir p =>
    obtain ⟨e, hv⟩ := hsp
    have he := rmFile_refused hv
    obtain ⟨a, -, ha⟩ := Option.map_eq_some_iff.mp hstep
    cases ha
    exact h.refused (q := crfsRmdir p.name) (congrArg Prod.snd he)
  | flush =>
    cases hstep
    exact h.flush
  | openFile f p => exact hsp.elim
  | read f size => exact hsp.elim
  | write f buf => exact hsp.elim
  | close f => exact hsp.elim
  | remount => exact hsp.elim

theorem Sparing.run (h : Sparing t) (hrun : Relation.ReflTransGen SparingStep t t') :
    Sparing t' := by
  induction hrun with
  | refl => exact h
  | tail _ hs ih => exact ih.step hs

/-! ### After the flush -/

/-- The blocks the current tree uses: slots, inode tables, directories and files. -/
def Vol.usesBlock (σ : Vol) (b : BlockId) : Prop :=
  b = 0 ∨ b = 16 ∨ (∃ k < 256, σ.img.vt k = b ∧ b ≠ 0) ∨ below σ.img σ.img.root b

/-- The inode numbers it uses; number 0 stands for no inode. -/
def Vol.usesInum (σ : Vol) (i : InodeId) : Prop := i = 0 ∨ Desc σ.img.kids σ.img.root i

theorem Exact.usesBlock (he : Exact σ.img s) (h : Inv σ s) {b : BlockId}
    (hb : σ.bm.isset b.toNat = true) : σ.usesBlock b := by
  rcases (h.blocks.exact b).mp hb with hb | rfl | rfl
  · right; right
    cases ho : s.own b with
    | none => exact absurd ho hb
    | some o =>
      cases o with
      | itable k => exact Or.inl ⟨k, (h.owned.ownTable k b).mp ho⟩
      | dir i =>
        obtain ⟨hi, hd, hf⟩ := (h.owned.ownDir i b).mp ho
        exact Or.inr ⟨i, h.tree.tree.reach i hi, by rw [Img.blockOf, if_pos hd]; exact hf.symm⟩
      | file i =>
        obtain ⟨hi, hd, -⟩ := h.owned.ownFile i b ho
        obtain ⟨l, hl, hown⟩ := he.chain i hi hd
        refine Or.inr ⟨i, h.tree.tree.reach i hi, ?_⟩
        rw [Img.blockOf, if_neg (by simp [hd])]
        exact (IsChain.onChain_iff hl).mpr ((hown b).mp ho)
      | held => exact absurd ho (he.held b)
  · exact Or.inl rfl
  · exact Or.inr (Or.inl rfl)

theorem Exact.usesInum (he : Exact σ.img s) (h : Inv σ s) {i : InodeId}
    (hi : σ.im.isset i.toNat = true) : σ.usesInum i := by
  rcases (h.inums.exact i).mp hi with hi | rfl
  · exact Or.inr (h.tree.tree.reach i ((he.num i).mp hi))
  · exact Or.inl rfl

/-- In a run that starts with a fresh inode map, never releases an inode number and
never leaves the first byte of the map, a flush starts both searches anew, and
`freemap_next` has every number the tree does not use on offer. -/
theorem flush_recycles {t₀ : Session} (hc : t₀.mach.store.Coherent) (hm : Mounted t₀.vol s)
    (hw : t₀.mach.glob.crfsWhichSuper = 0 ∨ t₀.mach.glob.crfsWhichSuper = 1)
    (hf : t₀.vol.im.Fresh) (hrun : Relation.ReflTransGen SparingStep t₀ t) :
    (cacheFlush t.mach).vol.bm.Fresh ∧ (cacheFlush t.mach).vol.im.Fresh ∧
    (¬ t.mach.glob.Full →
      (∀ b : BlockId, b.toNat < (cacheFlush t.mach).vol.bm.limit →
        ¬ (cacheFlush t.mach).vol.usesBlock b → (cacheFlush t.mach).vol.bm.Offers b.toNat) ∧
      ∀ i : InodeId, i.toNat < (cacheFlush t.mach).vol.im.limit →
        ¬ (cacheFlush t.mach).vol.usesInum i → (cacheFlush t.mach).vol.im.Offers i.toNat) := by
  have h₀ : Sparing t₀ := ⟨hc, hw, hf, fun _ => ⟨s, hm.inv, hm.exact⟩⟩
  have h := (h₀.run hrun).flush
  have hbm : (cacheFlush t.mach).vol.bm.Fresh := Freemap.fresh_flush _
  refine ⟨hbm, h.inums, ?_⟩
  intro hfull
  obtain ⟨s', hi, he⟩ := h.exact hfull
  refine ⟨?_, ?_⟩
  · intro b hb hu
    refine hbm.offers hi.blocks.ok hb ?_
    exact Bool.of_not_eq_true fun hset => hu (he.usesBlock hi hset)
  · intro i hi' hu
    refine h.inums.offers hi.inums.ok hi' ?_
    exact Bool.of_not_eq_true fun hset => hu (he.usesInum hi hset)

/-- Creating one file and flushing. -/
theorem flush_recycles_create : ∃ (c : Machine) (t : Session),
    crfsInit (crfsMkfs 98304 (boot fun _ => zeroBlock)) = some (true, c) ∧
      Session.step ⟨c, fun _ => none⟩ (.create pathA) = some (.ok 0, t) ∧
      (cacheFlush t.mach).vol.im.Fresh := by
  obtain ⟨c, hc, hv, hm, hcoh⟩ := fresh_session
  have hglob : c.glob = (freshVol 98304 3 fun _ => zeroBlock).glob := congrArg Flat.glob hv
  obtain ⟨t, ht, -, -, -⟩ := Session.step_create ⟨c, fun _ => none⟩ pathA
  have hres : ((crfsCreate pathA.name).eval c.vol).1 = .ok () := by
    rw [hv]
    decide +kernel
  rw [show Session.vol ⟨c, fun _ => none⟩ = c.vol from rfl, hres] at ht
  refine ⟨c, t, hc, ht, ?_⟩
  refine (flush_recycles
    (show (⟨c, fun _ => none⟩ : Session).mach.store.Coherent from hcoh) hm ?_ ?_
    (.single ⟨_, _, ht, Or.inr ⟨2, by decide, ?_⟩⟩)).2.1
  · exact Or.inl (by rw [hglob]; rfl)
  · change c.vol.im.Fresh
    rw [hv]
    exact ⟨rfl, rfl⟩
  · change c.vol.im.blocked 2 = false
    rw [hv]
    decide +kernel

/-- Creating and removing one file: the flush keeps the number of the file among the
released ones. -/
theorem flush_keeps_released_inum : ∃ (c : Machine) (t₁ t₂ t₃ : Session),
    crfsInit (crfsMkfs 98304 (boot fun _ => zeroBlock)) = some (true, c) ∧
      Session.step ⟨c, fun _ => none⟩ (.create pathA) = some (.ok 0, t₁) ∧
      t₁.step (.remove pathA) = some (.ok 0, t₂) ∧ t₂.step .flush = some (.ok 0, t₃) ∧
      mem t₃.vol.im.fmFreed 2 = true ∧ ¬ t₃.vol.im.Fresh := by
  obtain ⟨c, hc, hv, -, -⟩ := fresh_session
  obtain ⟨t₁, h₁, hv₁, -, -⟩ := Session.step_create ⟨c, fun _ => none⟩ pathA
  rw [show Session.vol ⟨c, fun _ => none⟩ = c.vol from rfl, hv] at h₁ hv₁
  have hcreated : ((crfsCreate pathA.name).eval (freshVol 98304 3 fun _ => zeroBlock)).1 =
      .ok () := by decide +kernel
  rw [hcreated] at h₁
  have hres : ((crfsRemove pathA.name).eval t₁.vol).1 = some (.ok ()) := by
    rw [hv₁]
    decide +kernel
  obtain ⟨t₂, h₂, hv₂, -⟩ := t₁.step_remove pathA hres
  have hfreed : mem t₂.vol.im.fmFreed 2 = true := by
    rw [hv₂, hv₁]
    decide +kernel
  refine ⟨c, t₁, t₂, _, hc, h₁, h₂, rfl, hfreed, ?_⟩
  intro hfresh
  have hz : t₂.vol.im.fmFreed = List.replicate t₂.vol.im.fmMapsize 0 := hfresh.freed
  rw [hz, mem_replicate] at hfreed
  cases hfreed

end Crfs
