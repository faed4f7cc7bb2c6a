import CobaltRom.Cmos.Repair

/-! The flag "nologo" in the CMOS, in the flag table and in `show_logo`. -/
namespace Cmos

/-- The logo is shown if and only if the stored flag is clear, and the table shows the flag as
it is stored. -/
def LogoConsistent (m : Machine) : Prop :=
  (m.glob.showLogo ≠ 0 ↔ ((cmosReadFlag cmosNologoFlag).run m).1 = 0) ∧
    ∀ f ∈ m.glob.cmosFlags, f.flag = cmosNologoFlag →
      (f.state ≠ 0 ↔ ((cmosReadFlag cmosNologoFlag).run m).1 ≠ 0)

/-- What `cmos_init` and any `cmos_flags` commands after it lead to. -/
inductive FlagRun (m : Machine) : Machine → Prop where
  | init : FlagRun m (cmosInit.run m).2
  | command {a : Machine} (argv : List Name) (h : FlagRun m a) :
    FlagRun m ((cmosFlagsFunc argv).run a).2

/-- The table has the flags it was built with. -/
def TableOk (fs : List CmosFlag) : Prop :=
  fs.map CmosFlag.flag = initialFlags.map CmosFlag.flag

/-- The state of "nologo" in the table is `show_logo`, which means the opposite. -/
structure Mirrored (m : Machine) : Prop where
  table : TableOk m.glob.cmosFlags
  state : ∀ f ∈ m.glob.cmosFlags, f.flag = cmosNologoFlag → f.state = m.glob.showLogo

variable {m m' : Machine} {g : Globals} {f : CmosFlag} {fs : List CmosFlag}

/-! ### `cmos_flags_sync` -/

theorem syncFlag_flag (dir : Bool) (g : Globals) (f : CmosFlag) :
    (syncFlag dir g f).2.flag = f.flag := by
  unfold syncFlag
  repeat' split
  all_goals rfl

theorem syncFlag_nologo (dir : Bool) (g : Globals) (h : f.flag = cmosNologoFlag) :
    syncFlag dir g f =
      if dir then ({ g with showLogo := f.state }, f) else (g, { f with state := g.showLogo }) := by
  unfold syncFlag
  rw [h]
  rfl

theorem syncFlag_other (dir : Bool) (g : Globals) (h : f.flag ≠ cmosNologoFlag) :
    (syncFlag dir g f).1.showLogo = g.showLogo := by
  unfold syncFlag
  repeat' split
  all_goals rfl

theorem syncFlags_cons (dir : Bool) (g : Globals) (f : CmosFlag) (fs : List CmosFlag) :
    syncFlags dir g (f :: fs) =
      ((syncFlags dir (syncFlag dir g f).1 fs).1,
        (syncFlag dir g f).2 :: (syncFlags dir (syncFlag dir g f).1 fs).2) := rfl

theorem syncFlags_flags (dir : Bool) (fs : List CmosFlag) (g : Globals) :
    (syncFlags dir g fs).2.map CmosFlag.flag = fs.map CmosFlag.flag := by
  induction fs generalizing g with
  | nil => rfl
  | cons f fs ih => rw [syncFlags_cons, List.map_cons, List.map_cons, syncFlag_flag, ih]

theorem syncFlags_other (dir : Bool) (fs : List CmosFlag) (g : Globals)
    (h : ∀ f ∈ fs, f.flag ≠ cmosNologoFlag) : (syncFlags dir g fs).1.showLogo = g.showLogo := by
  induction fs generalizing g with
  | nil => rfl
  | cons f fs ih =>
    rw [syncFlags_cons, ih _ fun f' hf' => h f' (List.mem_cons_of_mem f hf'),
      syncFlag_other dir g (h f List.mem_cons_self)]

/-- With one entry for the flag its state is the variable, whichever of them is copied. -/
theorem syncFlags_state (dir : Bool) (fs : List CmosFlag) (g : Globals)
    (h : (fs.map CmosFlag.flag).Nodup) : ∀ f ∈ (syncFlags dir g fs).2, f.flag = cmosNologoFlag →
      f.state = (syncFlags dir g fs).1.showLogo := by
  induction fs generalizing g with
  | nil => exact fun f hf => absurd hf List.not_mem_nil
  | cons e fs ih =>
    rw [List.map_cons, List.nodup_cons] at h
    intro f hf hflag
    rw [syncFlags_cons] at hf ⊢
    rcases List.mem_cons.mp hf with rfl | hf
    · rw [syncFlag_flag] at hflag
      have hrest : ∀ f' ∈ fs, f'.flag ≠ cmosNologoFlag := fun f' hf' he =>
        h.1 (by rw [hflag, ← he]; exact List.mem_map_of_mem hf')
      rw [syncFlags_other dir fs _ hrest, syncFlag_nologo dir g hflag]
      cases dir <;> rfl
    · exact ih _ h.2 f hf hflag

theorem cmosFlagsSync_mirrored (dir : Bool) (h : TableOk m.glob.cmosFlags) :
    Mirrored ((cmosFlagsSync dir).run m).2 where
  table := (syncFlags_flags dir m.glob.cmosFlags m.glob).trans h
  state := syncFlags_state dir m.glob.cmosFlags m.glob (by
    rw [show m.glob.cmosFlags.map CmosFlag.flag = _ from h]
    decide)

/-! ### The runs -/

theorem cmosInit_mirrored (h : TableOk m.glob.cmosFlags) : Mirrored (cmosInit.run m).2 := by
  obtain ⟨_, m₁, hr₁, h₁⟩ := cmosCheckChecksum_ports.run_eq m
  have htail : ∀ n : Machine, n.glob.cmosFlags = m.glob.cmosFlags →
      Mirrored (initSettings.run n).2 := fun n hn => by
    rw [initSettings_run]
    refine cmosFlagsSync_mirrored false ?_
    rw [(initHead_frame n).cmosFlags, hn]
    exact h
  unfold cmosInit
  rw [run_bind_of hr₁]
  split
  · rw [run_bind_snd, run_bind_snd, run_bind_snd]
    refine htail _ ?_
    rw [(cmosSetChecksum_ports _).glob, (doFirstBoot_ports _).glob]
    change m₁.glob.cmosFlags = m.glob.cmosFlags
    rw [h₁.glob]
  · rw [run_bind_snd]
    refine htail _ ?_
    change m₁.glob.cmosFlags = m.glob.cmosFlags
    rw [h₁.glob]

theorem map_flag_modify (state : UInt8) (fs : List CmosFlag) (k : Nat) :
    (fs.modify k fun f => { f with state := state }).map CmosFlag.flag = fs.map CmosFlag.flag := by
  induction fs generalizing k with
  | nil => cases k <;> rfl
  | cons f fs ih =>
    cases k with
    | zero => rfl
    | succ k => exact congrArg (f.flag :: ·) (ih k)

/-- Every command that gets as far as the table ends with the table copied to the variables. -/
theorem cmosFlagsFunc_mirrored (argv : List Name) (h : Mirrored m) :
    Mirrored ((cmosFlagsFunc argv).run m).2 := by
  match argv with
  | [] => exact h
  | [_] => exact h
  | _ :: name :: rest =>
    have hfind : (cmosFlagsNamefind name).run m =
        (m.glob.cmosFlags.findIdx? fun f => name.isPrefixOf f.name, m) := rfl
    unfold cmosFlagsFunc
    rw [run_bind_of hfind]
    cases m.glob.cmosFlags.findIdx? fun f => name.isPrefixOf f.name with
    | none => exact h
    | some k =>
      match rest with
      | [] =>
        obtain ⟨_, m₁, hr₁, h₁⟩ := (cmosReadFlag_ports
          ((m.glob.cmosFlags[k]?).elim 0 CmosFlag.flag)).run_eq m
        rw [run_bind_of (get_run m), run_bind_of hr₁]
        refine cmosFlagsSync_mirrored true ?_
        rw [h₁.glob]
        exact h.table
      | [arg] =>
        cases harg : onOff arg with
        | none =>
          simp only [harg]
          exact h
        | some state =>
          simp only [harg]
          obtain ⟨m₁, hm₁⟩ : ∃ m₁, (setFlagState k state).run m = ((), m₁) := ⟨_, rfl⟩
          have htable : TableOk m₁.glob.cmosFlags := by
            have := congrArg (fun r => r.2.glob.cmosFlags.map CmosFlag.flag) hm₁
            exact (this.symm.trans (map_flag_modify state m.glob.cmosFlags k)).trans h.table
          rw [run_bind_of hm₁, run_bind_of (get_run m₁)]
          obtain ⟨_, m₂, hr₂, h₂⟩ := (cmosWriteFlag_ports
            ((m₁.glob.cmosFlags[k]?).elim 0 CmosFlag.flag) (if state = 0 then 0 else 1)).run_eq m₁
          rw [run_bind_of hr₂]
          refine cmosFlagsSync_mirrored true ?_
          rw [h₂.glob]
          exact htable
      | _ :: _ :: _ => exact h

theorem FlagRun.mirrored (ht : TableOk m.glob.cmosFlags) (h : FlagRun m m') : Mirrored m' := by
  induction h with
  | init => exact cmosInit_mirrored ht
  | command argv _ ih => exact cmosFlagsFunc_mirrored argv ih

/-- The table and the variable are copies of each other, so they never have the opposite
meanings that they should have. -/
theorem Mirrored.not_consistent (h : Mirrored m) : ¬ LogoConsistent m := by
  rintro ⟨hlogo, hstate⟩
  have hmem : cmosNologoFlag ∈ m.glob.cmosFlags.map CmosFlag.flag := by
    rw [show m.glob.cmosFlags.map CmosFlag.flag = _ from h.table]
    decide
  obtain ⟨f, hf, hflag⟩ := List.mem_map.mp hmem
  have hs := hstate f hf hflag
  rw [h.state f hf hflag, hlogo] at hs
  exact iff_not_self hs

/-- No state of any run is consistent. -/
theorem logo_never_consistent (hm : m.glob.cmosFlags = initialFlags) (h : FlagRun m m') :
    ¬ LogoConsistent m' :=
  (h.mirrored (by rw [hm]; rfl)).not_consistent

/-- The blank CMOS, started. -/
theorem logo_never_consistent_blank : ¬ LogoConsistent (cmosInit.run blank).2 :=
  logo_never_consistent (m := blank) rfl .init

/-- "cmos_flags nologo on" -/
def nologoOn : List Name :=
  [[99, 109, 111, 115, 95, 102, 108, 97, 103, 115], [110, 111, 108, 111, 103, 111], [111, 110]]

theorem nologo_on_inconsistent :
    FlagRun blank ((cmosFlagsFunc nologoOn).run (cmosInit.run blank).2).2 ∧
      ¬ LogoConsistent ((cmosFlagsFunc nologoOn).run (cmosInit.run blank).2).2 := by
  have htable : TableOk blank.glob.cmosFlags := rfl
  have hrun : FlagRun blank ((cmosFlagsFunc nologoOn).run (cmosInit.run blank).2).2 :=
    .command nologoOn .init
  exact ⟨hrun, (hrun.mirrored htable).not_consistent⟩

end Cmos
