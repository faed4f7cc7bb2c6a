import CobaltRom.Crfs.MountExact
import CobaltRom.Crfs.Recycle

/-! The two super block slots: which of them a flush writes. -/
namespace Crfs
open WriteBack WriteBack.Prog

/-- Slot `a` holds a valid super block, and no valid one is newer. -/
structure NewestSuper (disk : BlockId → Block) (a : BlockId) : Prop where
  slot : a = 0 ∨ a = 16
  valid : validSuper (disk a) = true
  newest : ∀ b, b = 0 ∨ b = 16 → validSuper (disk b) = true →
    (disk b).sbBlockver ≤ (disk a).sbBlockver

/-- The slot the next flush writes its super block to. -/
def Machine.target (c : Machine) : BlockId := sbBlocknum (nextWhich c.glob.crfsWhichSuper)

/-- The next flush writes to the other slot than `a`, which holds a newest super block and
is left alone by every write of the flush. -/
structure SparesSlot (c : Machine) (a : BlockId) : Prop where
  newest : NewestSuper c.store.disk a
  slot : c.target = 0 ∨ c.target = 16
  other : c.target ≠ a
  kept : ∀ m, apply c.store.disk ((flushWrites c).take m) a = c.store.disk a

/-- The super block in memory is the newest one on the device, but for its tables. -/
structure Slotted (c : Machine) : Prop where
  which : c.glob.crfsWhichSuper = 0 ∨ c.glob.crfsWhichSuper = 1
  newest : NewestSuper c.store.disk (sbBlocknum c.glob.crfsWhichSuper)
  ver : c.glob.superBlock.sbBlockver = (c.store.disk (sbBlocknum c.glob.crfsWhichSuper)).sbBlockver
  magic : c.glob.superBlock.magicOk = true
  coherent : c.store.Coherent

/-- What a flush needs: no file block goes to the slot in use, and the version does not
wrap around. -/
def Slotted.Flushable (c : Machine) : Prop :=
  c.vol.dirty (sbBlocknum c.glob.crfsWhichSuper) = false ∧
    c.glob.superBlock.sbBlockver ≠ 0xffffffff

variable {c c₀ c' : Machine} {t t' : Session} {sb0 sb1 sb : Block} {w prev : Int}

theorem target_cases (h : c.glob.crfsWhichSuper = 0 ∨ c.glob.crfsWhichSuper = 1) :
    (c.target = 0 ∨ c.target = 16) ∧ c.target ≠ sbBlocknum c.glob.crfsWhichSuper := by
  rcases h with h | h
  · rw [Machine.target, h]
    exact ⟨Or.inr (by decide), by decide⟩
  · rw [Machine.target, h]
    exact ⟨Or.inl (by decide), by decide⟩

/-! ### Mounting -/

/-- The choice is an index into the list of valid super blocks. -/
theorem pick_at {l : List Block} {v : Int}
    (h : (if v < 0 then none else l[v.toNat]?.map fun sb => (v, sb)) = some (w, sb)) :
    v = w ∧ ∃ n : Nat, w = n ∧ l[n]? = some sb := by
  by_cases hv : v < 0
  · rw [if_pos hv] at h
    cases h
  · rw [if_neg hv] at h
    obtain ⟨b, hb, he⟩ := Option.map_eq_some_iff.mp h
    cases he
    exact ⟨rfl, w.toNat, (Int.toNat_of_nonneg (Int.not_lt.mp hv)).symm, hb⟩

/-- With a valid super block in slot 0 the index of the one chosen is its slot. -/
theorem pickSuper_valid (h0 : validSuper sb0 = true) (h : pickSuper sb0 sb1 prev = some (w, sb)) :
    (w = 0 ∧ sb = sb0 ∧ (validSuper sb1 = true → sb1.sbBlockver ≤ sb0.sbBlockver)) ∨
    (w = 1 ∧ sb = sb1 ∧ validSuper sb1 = true ∧ sb0.sbBlockver ≤ sb1.sbBlockver) := by
  by_cases h1 : validSuper sb1 = true
  · have hf : [sb0, sb1].filter validSuper = [sb0, sb1] := by simp [h0, h1]
    rw [pickSuper, hf] at h
    obtain ⟨hv, n, rfl, hn⟩ := pick_at h
    simp only [bestSuper] at hv
    have hcase : n = 0 ∧ sb = sb0 ∨ n = 1 ∧ sb = sb1 := by
      rcases n with _ | _ | n
      · exact Or.inl ⟨rfl, (Option.some.inj hn).symm⟩
      · exact Or.inr ⟨rfl, (Option.some.inj hn).symm⟩
      · cases hn
    have hzero : ∀ a b : UInt32, ¬ a > 0 → a ≤ b := fun a b ha =>
      UInt32.le_trans (UInt32.not_lt.mp ha) (UInt32.le_iff_toNat_le.mpr (Nat.zero_le _))
    have hver : (n = 0 → sb1.sbBlockver ≤ sb0.sbBlockver) ∧
        (n = 1 → sb0.sbBlockver ≤ sb1.sbBlockver) := by
      split at hv
      · split at hv
        · rename_i hlt
          exact ⟨fun h => by omega, fun _ => UInt32.le_of_lt hlt⟩
        · rename_i hge
          exact ⟨fun _ => UInt32.not_lt.mp hge, fun h => by omega⟩
      · rename_i hz
        split at hv
        · exact ⟨fun h => by omega, fun _ => hzero _ _ hz⟩
        · -- no version is above 0: the choice of an earlier mount is kept
          rename_i hz1
          exact ⟨fun _ => hzero _ _ hz1, fun _ => hzero _ _ hz⟩
    rcases hcase with ⟨rfl, rfl⟩ | ⟨rfl, rfl⟩
    · exact Or.inl ⟨rfl, rfl, fun _ => hver.1 rfl⟩
    · exact Or.inr ⟨rfl, rfl, h1, hver.2 rfl⟩
  · have hf : [sb0, sb1].filter validSuper = [sb0] := by simp [h0, h1]
    rw [pickSuper, hf] at h
    obtain ⟨-, n, rfl, hn⟩ := pick_at h
    rcases n with _ | n
    · exact Or.inl ⟨rfl, (Option.some.inj hn).symm, fun hc => absurd hc h1⟩
    · cases hn

/-- Otherwise the only super block, in slot 16, has index 0. -/
theorem pickSuper_invalid (h0 : validSuper sb0 = false)
    (h : pickSuper sb0 sb1 prev = some (w, sb)) : w = 0 := by
  have hlen : ([sb0, sb1].filter validSuper).length ≤ 1 := by
    rw [List.filter_cons_of_neg (by simp [h0])]
    exact List.length_filter_le _ _
  obtain ⟨-, n, rfl, hn⟩ := pick_at h
  have hlt := (List.getElem?_eq_some_iff.mp hn).1
  have hz : n = 0 := by omega
  rw [hz]
  rfl

/-- How `crfs_init` can end: there is no super block, or one was picked and the image marked. -/
theorem crfsInit_cases {r : Bool} (h : crfsInit c₀ = some (r, c)) :
    c.store.disk = c₀.store.disk ∧ c.store.Coherent ∧ c.store.cache ≠ [] ∧
    ((r = false ∧ pickSuper (c₀.store.disk 0) (c₀.store.disk 16) c₀.glob.crfsWhichSuper = none ∧
      c.glob = c₀.glob) ∨
    (r = true ∧ ∃ (which : Int) (sb : Block) (B : BlockId → Prop) (N : InodeId → Prop),
      pickSuper (c₀.store.disk 0) (c₀.store.disk 16) c₀.glob.crfsWhichSuper = some (which, sb) ∧
        Marked (startVol ⟨c₀.store.disk, fun _ => false, c₀.glob⟩ which sb) B N c.vol)) := by
  have hinit := initBody_eval ⟨c₀.store.disk, fun _ => false, c₀.glob⟩
  cases hp : pickSuper (c₀.store.disk 0) (c₀.store.disk 16) c₀.glob.crfsWhichSuper with
  | none =>
    simp only [hp] at hinit
    obtain ⟨c', hc', hv, hd, hcoh, hne⟩ := crfsInit_of_eval hinit
    rw [h] at hc'
    cases hc'
    exact ⟨hd, hcoh, hne, Or.inl ⟨rfl, rfl, congrArg Flat.glob hv⟩⟩
  | some r =>
    obtain ⟨which, sb⟩ := r
    simp only [hp] at hinit
    have hfin : (imgOf c₀.store.disk sb).Finite :=
      (mountBody_startVol _ _ _ _).mp ((crfsInit_isSome hp).mp (by rw [h]; rfl))
    obtain ⟨hbm, him⟩ := ok_freemapInit_start ⟨c₀.store.disk, fun _ => false, c₀.glob⟩ which sb
    have hfresh := isset_startVol ⟨c₀.store.disk, fun _ => false, c₀.glob⟩ which sb
    obtain ⟨τ, he, hm, -⟩ := mountBody_exact hbm him rfl
      (show (startVol ⟨c₀.store.disk, fun _ => false, c₀.glob⟩ which sb).glob.superBlock = sb
        from rfl) (fun x => (hfresh x.toNat).2) hfin
    obtain ⟨c', hc', hv, hd, hcoh, hne⟩ := crfsInit_of_eval (hinit.trans he)
    rw [h] at hc'
    cases hc'
    rw [← hv] at hm
    exact ⟨hd, hcoh, hne, Or.inr ⟨rfl, which, sb, _, _, rfl, hm⟩⟩

/-- A machine that was mounted holds the super block that was picked. -/
theorem crfsInit_super (h : crfsInit c₀ = some (true, c)) : ∃ which sb,
    pickSuper (c₀.store.disk 0) (c₀.store.disk 16) c₀.glob.crfsWhichSuper = some (which, sb) ∧
      c.glob.superBlock = sb ∧ c.glob.crfsWhichSuper = which ∧ c.store.disk = c₀.store.disk ∧
      c.store.Coherent ∧ c.store.cache ≠ [] := by
  obtain ⟨hd, hcoh, hne, ⟨hr, -⟩ | ⟨-, which, sb, B, N, hp, hm⟩⟩ := crfsInit_cases h
  · cases hr
  · exact ⟨which, sb, hp, hm.super, hm.which, hd, hcoh, hne⟩

/-- A mounted machine shows the device and starts in the root. -/
theorem crfsInit_view (h : crfsInit c₀ = some (true, c)) :
    c.vol.val = c₀.store.disk ∧ c.glob.crfsPwd = c.glob.superBlock.sbRoot := by
  obtain ⟨-, -, -, ⟨hr, -⟩ | ⟨-, which, sb, B, N, hp, hm⟩⟩ := crfsInit_cases h
  · cases hr
  refine ⟨hm.val, ?_⟩
  have hsuper : c.glob.superBlock = sb := hm.super
  have hinit := initBody_eval ⟨c₀.store.disk, fun _ => false, c₀.glob⟩
  rw [hp] at hinit
  obtain ⟨hbm, him⟩ := ok_freemapInit_start ⟨c₀.store.disk, fun _ => false, c₀.glob⟩ which sb
  obtain ⟨σ₁, -, he, -⟩ := mountBody_start hbm him
    (show (startVol ⟨c₀.store.disk, fun _ => false, c₀.glob⟩ which sb).glob.superBlock =
      sb from rfl)
  have hfin := (crfsInit_isSome hp).mp (by rw [h]; rfl)
  generalize hwalk : (markInode (walkFuel + 1) sb.sbRoot).eval σ₁ = w at he
  obtain ⟨_ | u, τ⟩ := w
  · rw [he] at hfin
    exact absurd rfl hfin
  · obtain ⟨c', hc', hv, -⟩ := crfsInit_of_eval (hinit.trans he)
    rw [h] at hc'
    cases hc'
    have hpwd := congrArg (fun υ : Vol => υ.glob.crfsPwd) hv
    rw [hsuper]
    exact hpwd

theorem slotted_init (h : crfsInit c₀ = some (true, c))
    (h0 : validSuper (c₀.store.disk 0) = true) : Slotted c := by
  obtain ⟨which, sb, hp, hsb, hw, hd, hcoh, -⟩ := crfsInit_super h
  have hmagic : ∀ b, validSuper b = true → b.magicOk = true := by
    intro b hb
    rw [validSuper, Bool.and_eq_true] at hb
    exact hb.2
  rcases pickSuper_valid h0 hp with ⟨rfl, rfl, hv⟩ | ⟨rfl, rfl, h1, hv⟩
  · have hs : sbBlocknum c.glob.crfsWhichSuper = 0 := by
      rw [hw]
      decide
    refine ⟨Or.inl hw, ?_, by rw [hs, hd, hsb], by rw [hsb]; exact hmagic _ h0, hcoh⟩
    rw [hs, hd]
    refine ⟨Or.inl rfl, h0, ?_⟩
    rintro b (rfl | rfl) hb
    · exact UInt32.le_refl _
    · exact hv hb
  · have hs : sbBlocknum c.glob.crfsWhichSuper = 16 := by
      rw [hw]
      decide
    refine ⟨Or.inr hw, ?_, by rw [hs, hd, hsb], by rw [hsb]; exact hmagic _ h1, hcoh⟩
    rw [hs, hd]
    refine ⟨Or.inr rfl, h1, ?_⟩
    rintro b (rfl | rfl) hb
    · exact hv
    · exact UInt32.le_refl _

/-! ### Calls -/

/-- While the slot in use is clean, no write of the flush goes there. -/
theorem Slotted.spares (h : Slotted c)
    (hd : c.vol.dirty (sbBlocknum c.glob.crfsWhichSuper) = false) :
    SparesSlot c (sbBlocknum c.glob.crfsWhichSuper) := by
  obtain ⟨hslot, hother⟩ := target_cases h.which
  refine ⟨h.newest, hslot, hother, fun m => ?_⟩
  refine apply_of_notMem fun hmem => ?_
  obtain ⟨w, hw, he⟩ := List.mem_map.mp hmem
  rcases List.mem_append.mp (List.mem_of_mem_take hw) with hw | hw
  · have hdirty := (Store.mem_pending_keys h.coherent).mp (List.mem_map_of_mem hw)
    rw [he] at hdirty
    rw [show c.vol.dirty (sbBlocknum c.glob.crfsWhichSuper) =
      c.store.isDirty (sbBlocknum c.glob.crfsWhichSuper) from rfl, hdirty] at hd
    cases hd
  · split at hw
    · cases hw
    · rw [List.mem_singleton] at hw
      rw [hw] at he
      exact hother he

/-- A flush that stores a super block leaves the slot in use alone and puts a newer one into the
other. -/
theorem Slotted.flush_slots (h : Slotted c) (hf : Slotted.Flushable c) (hne : c.store.cache ≠ []) :
    (cacheFlush c).store.disk (sbBlocknum c.glob.crfsWhichSuper) =
        c.store.disk (sbBlocknum c.glob.crfsWhichSuper) ∧
      (cacheFlush c).store.disk c.target = nextSuper c.glob.superBlock ∧
      c.glob.superBlock.sbBlockver < (nextSuper c.glob.superBlock).sbBlockver := by
  refine ⟨?_, ?_, ?_⟩
  · have hold := (h.spares hf.1).kept (flushWrites c).length
    rwa [List.take_length] at hold
  · change apply c.store.disk (flushWrites c) c.target = _
    rw [flushWrites, if_neg hne, apply_append]
    exact Function.update_self _ _ _
  · rw [sbBlockver_nextSuper, UInt32.lt_iff_toNat_lt, UInt32.toNat_add]
    have hlt := c.glob.superBlock.sbBlockver.toNat_lt
    have hne : c.glob.superBlock.sbBlockver.toNat ≠ 4294967295 := fun he =>
      hf.2 (UInt32.toNat_inj.mp he)
    rw [show (1 : UInt32).toNat = 1 from rfl, Nat.mod_eq_of_lt (by omega)]
    omega

theorem Slotted.flush (h : Slotted c) (hf : Slotted.Flushable c) : Slotted (cacheFlush c) := by
  obtain ⟨hslot, hother⟩ := target_cases h.which
  by_cases hc : c.store.cache = []
  · have hw : flushWrites c = [] := by
      rw [flushWrites, if_pos hc, List.append_nil, Store.pending, hc]
      rfl
    have hdisk : (cacheFlush c).store.disk = c.store.disk := by
      change apply c.store.disk (flushWrites c) = _
      rw [hw, apply_nil]
    have hwhich : (cacheFlush c).glob.crfsWhichSuper = c.glob.crfsWhichSuper := if_pos hc
    have hsuper : (cacheFlush c).glob.superBlock = c.glob.superBlock := if_pos hc
    refine ⟨by rw [hwhich]; exact h.which, by rw [hwhich, hdisk]; exact h.newest, ?_, ?_,
      cacheFlush_coherent c⟩
    · rw [hwhich, hdisk, hsuper]
      exact h.ver
    · rw [hsuper]
      exact h.magic
  · have hwhich : (cacheFlush c).glob.crfsWhichSuper = nextWhich c.glob.crfsWhichSuper := if_neg hc
    have hsuper : (cacheFlush c).glob.superBlock = nextSuper c.glob.superBlock := if_neg hc
    obtain ⟨hold, hnew, hver⟩ := h.flush_slots hf hc
    have htarget : sbBlocknum (cacheFlush c).glob.crfsWhichSuper = c.target := by
      rw [hwhich]
      rfl
    refine ⟨?_, ?_, ?_, ?_, cacheFlush_coherent c⟩
    · rw [hwhich]
      rcases h.which with hw | hw
      · rw [hw]
        exact Or.inr (by decide)
      · rw [hw]
        exact Or.inl (by decide)
    · rw [htarget]
      refine ⟨hslot, by rw [hnew]; exact validSuper_nextSuper h.magic, ?_⟩
      intro b hb hv
      by_cases he : b = c.target
      · rw [he]
        exact UInt32.le_refl _
      · -- the other slot is the one that was in use
        have hbw : b = sbBlocknum c.glob.crfsWhichSuper := by
          have hs := h.newest.slot
          rcases hb with rfl | rfl <;> rcases hs with hs | hs <;> rcases hslot with ht | ht <;>
            simp_all
        rw [hbw, hold, ← h.ver, hnew]
        exact UInt32.le_of_lt hver
    · rw [htarget, hnew, hsuper]
    · rw [hsuper, magicOk_nextSuper]
      exact h.magic

/-- A call that writes nothing to the device. -/
theorem Slotted.congr (h : Slotted c) (hd : c'.store.disk = c.store.disk)
    (hg : SameSuper c.glob c'.glob) (hc : c'.store.Coherent) : Slotted c' := by
  refine ⟨by rw [hg.which]; exact h.which, by rw [hg.which, hd]; exact h.newest, ?_, ?_, hc⟩
  · rw [hg.which, hd, hg.blockver]
    exact h.ver
  · rw [hg.magic]
    exact h.magic

theorem Slotted.exec {α : Type} (h : Slotted c) {q : FsM α}
    (hq : ∀ g, Keeps (SameSuper g) q) : Slotted (q.exec c).2 := by
  have hk := hq c.glob c.vol (SameSuper.refl _)
  rw [← (exec_vol q c).2] at hk
  exact h.congr (Prog.exec_disk c q) hk (exec_coherent q h.coherent)

/-- A call of a mounted program; where it flushes, the flush goes well. -/
def SlotStep (t t' : Session) : Prop :=
  ∃ a r, t.step a = some (r, t') ∧ a ≠ .remount ∧
    ((a = .flush ∨ ∃ f, a = .close f) → Slotted.Flushable t.mach)

theorem Slotted.step (h : Slotted t.mach) (hs : SlotStep t t') : Slotted t'.mach := by
  obtain ⟨a, r, hstep, hmount, hflush⟩ := hs
  rcases Session.step_cases hstep with ⟨α, q, he, hq⟩ | ⟨ha, he⟩ | ⟨ha, -⟩
  · rw [he]
    exact h.exec fun g => hq _ (stable_sameSuper g)
  · rw [he]
    exact h.flush (hflush ha)
  · exact absurd ha hmount

theorem Slotted.run (h : Slotted t.mach) (hrun : Relation.ReflTransGen SlotStep t t') :
    Slotted t'.mach := by
  induction hrun with
  | refl => exact h
  | tail _ hs ih => exact ih.step hs

/-- The first flush after mounting spares the newest super block exactly if slot 0 is valid,
and from then on so does every flush. -/
theorem flush_spares_newest (h : crfsInit c₀ = some (true, c)) :
    ((∃ a, NewestSuper c.store.disk a ∧ c.target ≠ a) ↔
      validSuper (c₀.store.disk 0) = true) ∧
    (validSuper (c₀.store.disk 0) = true →
      ∀ t, Relation.ReflTransGen SlotStep ⟨c, fun _ => none⟩ t → Slotted.Flushable t.mach →
        ∃ a, SparesSlot t.mach a) := by
  refine ⟨⟨?_, fun h0 => ?_⟩, fun h0 t hrun hf => ?_⟩
  · rintro ⟨a, hn, ha⟩
    obtain ⟨which, sb, hp, -, hw, hd, -, -⟩ := crfsInit_super h
    by_contra h0
    have hz := pickSuper_invalid (Bool.of_not_eq_true h0) hp
    have ht : c.target = 16 := by
      rw [Machine.target, hw, hz]
      decide
    rcases hn.slot with rfl | rfl
    · have hv := hn.valid
      rw [hd] at hv
      exact h0 hv
    · exact ha ht
  · have hs := slotted_init h h0
    exact ⟨_, hs.newest, (target_cases hs.which).2⟩
  · exact ⟨_, ((slotted_init h h0).run hrun).spares hf.1⟩

/-- Creating a file on the small device. -/
theorem flush_spares_created : ∃ (c : Machine) (t : Session) (a : BlockId),
    crfsInit (crfsMkfs 98304 (boot fun _ => zeroBlock)) = some (true, c) ∧
      Session.step ⟨c, fun _ => none⟩ (.create pathA) = some (.ok 0, t) ∧ SparesSlot t.mach a := by
  obtain ⟨c, hc, hv, -⟩ := fresh_session
  have h0 : validSuper ((crfsMkfs 98304 (boot fun _ => zeroBlock)).store.disk 0) = true := by
    rw [(crfsMkfs_boot 98304 _).1]
    exact validSuper_nextSuper (magicOk_mkfsSuper 98304 1)
  obtain ⟨t, ht, hvt, -, -⟩ := Session.step_create ⟨c, fun _ => none⟩ pathA
  rw [show Session.vol ⟨c, fun _ => none⟩ = c.vol from rfl, hv] at ht hvt
  have hres : ((crfsCreate pathA.name).eval (freshVol 98304 3 fun _ => zeroBlock)).1 = .ok () := by
    decide +kernel
  rw [hres] at ht
  have hglob : t.mach.glob = t.vol.glob := rfl
  have hw : t.mach.glob.crfsWhichSuper = 0 := by
    rw [hglob, hvt]
    decide +kernel
  have hflush : Slotted.Flushable t.mach := by
    refine ⟨?_, ?_⟩
    · rw [hw, show t.mach.vol = t.vol from rfl, hvt]
      decide +kernel
    · rw [hglob, hvt]
      decide +kernel
  obtain ⟨a, ha⟩ := (flush_spares_newest hc).2 h0 t
    (.single ⟨_, _, ht, by simp, fun hf => by simp at hf⟩) hflush
  exact ⟨c, t, a, hc, ht, ha⟩

/-- A device whose first super block was lost. -/
def tornDisk : BlockId → Block := Function.update (mkfsDisk 98304 fun _ => zeroBlock) 0 zeroBlock

/-- It can be mounted, and the next flush overwrites the super block that is left. -/
theorem flush_hits_newest : ∃ c : Machine, crfsInit (boot tornDisk) = some (true, c) ∧
    NewestSuper c.store.disk 16 ∧ c.store.cache ≠ [] ∧ c.target = 16 ∧
      ¬ ∃ a, NewestSuper c.store.disk a ∧ c.target ≠ a := by
  have hval : ∀ b, b ≠ 0 → tornDisk b = mkfsDisk 98304 (fun _ => zeroBlock) b :=
    fun b hb => Function.update_of_ne hb _ _
  have h0 : tornDisk 0 = zeroBlock := Function.update_self _ _ _
  have h16 : tornDisk 16 = mkfsSuper 98304 1 := hval 16 (by decide)
  have hbad : validSuper zeroBlock = false := by
    rw [validSuper, Bool.and_eq_false_iff]
    exact Or.inr (by decide +kernel)
  have hgood := validSuper_mkfsSuper 98304 1
  have hp : pickSuper (tornDisk 0) (tornDisk 16) (-1) = some (0, mkfsSuper 98304 1) := by
    rw [h0, h16, pickSuper]
    have hf : [zeroBlock, mkfsSuper 98304 1].filter validSuper = [mkfsSuper 98304 1] := by
      simp [hbad, hgood]
    have hb : bestSuper [mkfsSuper 98304 1] 0 (-1) 0 = 0 := by
      simp only [bestSuper, sbBlockver_mkfsSuper]
      rfl
    simp only [hf, hb]
    rfl
  have hwf : WfImage tornDisk (mkfsSuper 98304 1) mkfsShape := by
    have hfresh : WfImage (mkfsDisk 98304 fun _ => zeroBlock) (nextSuper (mkfsSuper 98304 1))
        mkfsShape := mkfs_wfImage goodSize_small
    refine hfresh.congr (funext fun k => (sbVtable_nextSuper _ k).symm)
      (sbRoot_nextSuper _).symm (sbFssize_nextSuper _).symm ?_
    intro b hb
    refine hval b ?_
    rintro rfl
    exact hb rfl
  obtain ⟨c, hc, -, hd, -, hne, -, -, -, hw, -⟩ := crfsInit_mounted (c := boot tornDisk) hwf hp
  change c.store.disk = tornDisk at hd
  have ht : c.target = 16 := by
    rw [Machine.target, hw]
    decide
  have hnew : NewestSuper c.store.disk 16 := by
    refine ⟨Or.inr rfl, by rw [hd, h16]; exact hgood, ?_⟩
    rintro b (rfl | rfl) hb
    · rw [hd, h0, hbad] at hb
      cases hb
    · exact UInt32.le_refl _
  refine ⟨c, hc, hnew, hne, ht, ?_⟩
  rintro ⟨a, ha, hta⟩
  rcases ha.slot with rfl | rfl
  · have hv := ha.valid
    rw [hd, h0, hbad] at hv
    cases hv
  · exact hta ht

end Crfs
