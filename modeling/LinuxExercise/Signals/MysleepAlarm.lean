import LinuxExercise.Signals.Mysleep

/-!
# What becomes of the alarm of `mysleep`

`Inv` says for each place in `mysleep` what the mask, the action for `SIGALRM` and the timer are
there.  The mask is described by `base`, since a handler may be running; before the wait `SIGALRM`
is blocked in every frame as well, and that is why an alarm that expires early is still there when
`sigsuspend` unblocks it.

After the wait there is one fork.  If `SIGALRM` was not pending at line 29, or the caller ignores
it, nothing is left of the alarm.  Otherwise it is on its way to the caller (`Restored`), and when
`mysleep` returns it has been delivered under the action of the caller (`Spent`), or is pending
if the caller blocks it.
-/

namespace LinuxExercise.Mysleep

variable {e g g' : Signals ℕ Handler} {s s' : Mysleep}

/-- `do_sig` handles `SIGALRM`, and the action of the caller is in `oldact`. -/
structure Catching (e g : Signals ℕ Handler) (oldact : Action ℕ Handler) : Prop where
  action : g.action sigalrm = newact
  oldact : oldact = e.action sigalrm

/-- `mysleep` blocks `SIGALRM` in addition to the mask of the caller, which is in `oldmask`. -/
structure Guarded (e g : Signals ℕ Handler) (oldmask : Finset ℕ) : Prop where
  base : g.base = insert sigalrm e.mask
  oldmask : oldmask = e.mask

/-- Inside `sigsuspend` no handler is running. -/
structure Waiting (e g : Signals ℕ Handler) (saved oldmask : Finset ℕ) : Prop where
  frames : g.frames = []
  mask : g.mask = e.mask.erase sigalrm
  saved : saved = insert sigalrm e.mask
  oldmask : oldmask = e.mask

/-- The alarm is still to come, or has expired and waits for its delivery. -/
def Armed (alarm : Option Owner) (g : Signals ℕ Handler) : Prop :=
  alarm = some .mysleep ∨ sigalrm ∈ g.pending

/-- The action of the caller is back, and `SIGALRM` is pending if it is late. -/
structure Restored (e g : Signals ℕ Handler) (late : Bool) : Prop where
  action : g.action sigalrm = e.action sigalrm
  pending : sigalrm ∈ g.pending ↔ late = true ∧ (e.action sigalrm).disposition ≠ .ign

/-- A late `SIGALRM` has been delivered to a handler of the caller. -/
structure Spent (e g : Signals ℕ Handler) (late : Bool) : Prop where
  late : late = true
  unblocked : sigalrm ∉ e.mask
  handled : ∃ f, (e.action sigalrm).disposition = .handle f
  action : g.action sigalrm = (e.action sigalrm).taken
  pending : sigalrm ∉ g.pending

/-- The invariant of a call of `mysleep` in the state `e`. -/
def Inv (e : Signals ℕ Handler) (s : Mysleep) : Prop :=
  let g := s.signals
  match s.pc with
  | .line14 => g.action = e.action ∧ g.mask = e.mask ∧ g.frames = []
  | .line19 => Catching e g s.oldact ∧ g.base = e.mask
  | .line21 => Catching e g s.oldact ∧ Guarded e g s.oldmask ∧ g.Blocks sigalrm
  | .line25 =>
    Catching e g s.oldact ∧ Guarded e g s.oldmask ∧ g.Blocks sigalrm ∧ Armed s.alarm g
  | .suspended => Catching e g s.oldact ∧ Waiting e g s.saved s.oldmask ∧ Armed s.alarm g
  | .line27 => Catching e g s.oldact ∧ Guarded e g s.oldmask
  | .line29 => Catching e g s.oldact ∧ Guarded e g s.oldmask ∧ s.alarm = none
  | .line30 =>
    Guarded e g s.oldmask ∧ g.Blocks sigalrm ∧ s.alarm = none ∧ Restored e g s.late
  | .line31 => g.base = e.mask ∧ (sigalrm ∈ e.mask → g.Blocks sigalrm) ∧ s.alarm = none ∧
    (Restored e g s.late ∨ Spent e g s.late)
  | .returned => g.mask = e.mask ∧ g.Quiet ∧ s.alarm = none ∧
    (Restored e g s.late ∨ Spent e g s.late)
  | .terminated => True

theorem inv_start (e : Signals ℕ Handler) (callerAlarm : Bool) : Inv e (start e callerAlarm) :=
  ⟨rfl, rfl, rfl⟩

/-! ## The calls of `mysleep` -/

/-- The code of `mysleep` goes on. -/
theorem Inv.line {nSecs : ℕ} (hpos : 0 < nSecs) (hinv : Inv e s)
    (hframes : s.signals.frames = []) (hquiet : s.signals.Quiet)
    (hstep : s.line nSecs = some s') : Inv e s' := by
  have hbase := Signals.base_of_nil hframes
  unfold Mysleep.line at hstep
  unfold Inv at hinv
  cases hpc : s.pc with
  | line14 =>
    rw [hpc] at hinv hstep
    obtain rfl := Option.some.inj hstep
    obtain ⟨haction, hmask, -⟩ := hinv
    exact ⟨⟨Signals.sigaction_action .., congrFun haction sigalrm⟩,
      (Signals.base_of_nil hframes).trans hmask⟩
  | line19 =>
    rw [hpc] at hinv hstep
    obtain rfl := Option.some.inj hstep
    obtain ⟨hcatch, hmask⟩ := hinv
    rw [hbase] at hmask
    refine ⟨⟨hcatch.action, hcatch.oldact⟩, ⟨(Signals.base_setMask hframes _).trans ?_, hmask⟩,
      (Signals.blocks_setMask hframes).mpr (Finset.mem_insert_self ..)⟩
    rw [← hmask]
  | line21 =>
    rw [hpc] at hinv hstep
    obtain rfl := Option.some.inj hstep
    exact ⟨hinv.1, hinv.2.1, hinv.2.2, .inl (if_neg hpos.ne')⟩
  | line25 =>
    rw [hpc] at hinv hstep
    obtain rfl := Option.some.inj hstep
    obtain ⟨hcatch, hguard, -, harmed⟩ := hinv
    refine ⟨⟨hcatch.action, hcatch.oldact⟩,
      ⟨hframes, ?_, hbase.symm.trans hguard.base, hguard.oldmask⟩, harmed⟩
    exact congrArg (Finset.erase · sigalrm) hguard.oldmask
  | line27 =>
    rw [hpc] at hinv hstep
    obtain rfl := Option.some.inj hstep
    exact ⟨hinv.1, hinv.2, rfl⟩
  | line29 =>
    rw [hpc] at hinv hstep
    obtain rfl := Option.some.inj hstep
    obtain ⟨hcatch, hguard, halarm⟩ := hinv
    have hmask : sigalrm ∈ s.signals.mask := by
      rw [← hbase, hguard.base]
      exact Finset.mem_insert_self ..
    refine ⟨⟨(Signals.base_of_nil hframes).trans (hbase.symm.trans hguard.base), hguard.oldmask⟩,
      (Signals.blocks_of_nil hframes).mpr hmask, halarm, ?_, ?_⟩
    · exact (Signals.sigaction_action ..).trans hcatch.oldact
    · rw [← hcatch.oldact]
      exact Signals.mem_pending_sigaction.trans (and_congr_left' decide_eq_true_iff.symm)
  | line30 =>
    rw [hpc] at hinv hstep
    obtain rfl := Option.some.inj hstep
    obtain ⟨hguard, -, halarm, hrestored⟩ := hinv
    refine ⟨(Signals.base_setMask hframes _).trans hguard.oldmask, fun hmem => ?_, halarm,
      .inl ⟨hrestored.action, hrestored.pending⟩⟩
    refine (Signals.blocks_setMask hframes).mpr ?_
    rw [hguard.oldmask]
    exact hmem
  | line31 =>
    rw [hpc] at hinv hstep
    obtain rfl := Option.some.inj hstep
    exact ⟨hbase.symm.trans hinv.1, hquiet, hinv.2.2⟩
  | suspended | returned | terminated => simp [hpc] at hstep

/-! ## What happens between the calls -/

/-- What other signals do to the process: handlers of theirs come and go. -/
structure Undisturbed (g g' : Signals ℕ Handler) : Prop where
  base : g'.base = g.base
  blocks : g.Blocks sigalrm → g'.Blocks sigalrm
  action : g'.action sigalrm = g.action sigalrm
  pending : sigalrm ∈ g'.pending ↔ sigalrm ∈ g.pending

theorem Undisturbed.catching (h : Undisturbed g g') {oldact : Action ℕ Handler}
    (hcatch : Catching e g oldact) : Catching e g' oldact :=
  ⟨h.action.trans hcatch.action, hcatch.oldact⟩

theorem Undisturbed.guarded (h : Undisturbed g g') {oldmask : Finset ℕ}
    (hguard : Guarded e g oldmask) : Guarded e g' oldmask :=
  ⟨h.base.trans hguard.base, hguard.oldmask⟩

theorem Undisturbed.armed (h : Undisturbed g g') {alarm : Option Owner}
    (harmed : Armed alarm g) : Armed alarm g' :=
  harmed.imp_right h.pending.mpr

theorem Undisturbed.restored (h : Undisturbed g g') {late : Bool}
    (hrestored : Restored e g late) : Restored e g' late :=
  ⟨h.action.trans hrestored.action, h.pending.trans hrestored.pending⟩

theorem Undisturbed.spent (h : Undisturbed g g') {late : Bool} (hspent : Spent e g late) :
    Spent e g' late :=
  { hspent with
    action := h.action.trans hspent.action
    pending := mt h.pending.mp hspent.pending }

/-- Outside `sigsuspend` the invariant does not notice other signals. -/
theorem Inv.undisturbed (hinv : Inv e s) (hinside : s.pc.inside = true)
    (hwait : s.pc ≠ .suspended) (h : Undisturbed s.signals g) :
    Inv e { s with signals := g } := by
  unfold Inv at hinv ⊢
  cases hpc : s.pc with
  | line19 =>
    rw [hpc] at hinv
    exact ⟨h.catching hinv.1, h.base.trans hinv.2⟩
  | line21 =>
    rw [hpc] at hinv
    obtain ⟨hcatch, hguard, hblocks⟩ := hinv
    exact ⟨h.catching hcatch, h.guarded hguard, h.blocks hblocks⟩
  | line25 =>
    rw [hpc] at hinv
    obtain ⟨hcatch, hguard, hblocks, harmed⟩ := hinv
    exact ⟨h.catching hcatch, h.guarded hguard, h.blocks hblocks, h.armed harmed⟩
  | line27 =>
    rw [hpc] at hinv
    exact ⟨h.catching hinv.1, h.guarded hinv.2⟩
  | line29 =>
    rw [hpc] at hinv
    obtain ⟨hcatch, hguard, halarm⟩ := hinv
    exact ⟨h.catching hcatch, h.guarded hguard, halarm⟩
  | line30 =>
    rw [hpc] at hinv
    obtain ⟨hguard, hblocks, halarm, hrestored⟩ := hinv
    exact ⟨h.guarded hguard, h.blocks hblocks, halarm, h.restored hrestored⟩
  | line31 =>
    rw [hpc] at hinv
    obtain ⟨hbase, hblocks, halarm, hrest⟩ := hinv
    exact ⟨h.base.trans hbase, fun hmem => h.blocks (hblocks hmem), halarm,
      hrest.imp h.restored h.spent⟩
  | suspended => exact absurd hpc hwait
  | line14 | returned | terminated => simp [hpc, Pc.inside] at hinside

theorem undisturbed_generate {sig : ℕ} (hsig : sig ≠ sigalrm) (g : Signals ℕ Handler) :
    Undisturbed g (g.generate sig) := by
  obtain ⟨pending, heq, -, hothers⟩ := Signals.generate_eq sig g
  rw [heq]
  exact ⟨rfl, id, rfl, hothers sigalrm hsig.symm⟩

theorem undisturbed_deliver {sig : ℕ} (hsig : sig ≠ sigalrm) {d : Disposition Handler}
    (h : g.deliver sig g.mask = some (d, g')) : Undisturbed g g' := by
  obtain ⟨-, -, -, hpending, hcases⟩ := Signals.deliver_cases h
  refine ⟨Signals.deliver_base h, fun hblocks => hblocks.deliver h, ?_, ?_⟩
  · obtain ⟨f, -, -, haction, -⟩ | ⟨-, -, haction, -⟩ := hcases
    · rw [haction, Function.update_of_ne hsig.symm]
    · rw [haction]
  · rw [hpending, Finset.mem_erase, and_iff_right hsig.symm]

theorem undisturbed_handlerReturn (h : g.handlerReturn = some g') : Undisturbed g g' := by
  refine ⟨Signals.handlerReturn_base h, fun hblocks => hblocks.handlerReturn h, ?_, ?_⟩
  all_goals
    obtain ⟨m, rest, -, rfl⟩ := Signals.handlerReturn_cases h
    rfl

/-- As long as `do_sig` handles `SIGALRM` it goes on doing so. -/
theorem Catching.deliver {oldact : Action ℕ Handler} (hcatch : Catching e g oldact)
    {resume : Finset ℕ} {d : Disposition Handler}
    (h : g.deliver sigalrm resume = some (d, g')) :
    d = .handle .doSig ∧ Catching e g' oldact ∧ g'.frames = resume :: g.frames := by
  obtain ⟨-, -, hd, -, hcases⟩ := Signals.deliver_cases h
  rw [hcatch.action] at hd hcases
  obtain ⟨f, -, -, haction, hframes⟩ | ⟨hnone, -⟩ := hcases
  · refine ⟨hd, ⟨?_, hcatch.oldact⟩, hframes⟩
    rw [haction, Function.update_self]
    rfl
  · exact absurd hd (hnone .doSig)

/-- Another signal is generated. -/
theorem Inv.generate {sig : ℕ} (hinv : Inv e s) (hinside : s.pc.inside = true)
    (hsig : sig ≠ sigalrm) : Inv e { s with signals := s.signals.generate sig } := by
  have hun := undisturbed_generate hsig s.signals
  by_cases hwait : s.pc = .suspended
  · unfold Inv at hinv ⊢
    rw [hwait] at hinv
    simp only [hwait]
    obtain ⟨hcatch, hwaiting, harmed⟩ := hinv
    obtain ⟨pending, heq, -, -⟩ := Signals.generate_eq sig s.signals
    refine ⟨hun.catching hcatch, ?_, hun.armed harmed⟩
    rw [heq]
    exact ⟨hwaiting.frames, hwaiting.mask, hwaiting.saved, hwaiting.oldmask⟩
  · exact hinv.undisturbed hinside hwait hun

/-- A handler returns. -/
theorem Inv.handlerReturn (hinv : Inv e s) (hinside : s.pc.inside = true)
    (h : s.signals.handlerReturn = some g) : Inv e { s with signals := g } := by
  have hwait : s.pc ≠ .suspended := by
    intro hwait
    unfold Inv at hinv
    rw [hwait] at hinv
    obtain ⟨m, rest, hframes, -⟩ := Signals.handlerReturn_cases h
    rw [hinv.2.1.frames] at hframes
    cases hframes
  exact hinv.undisturbed hinside hwait (undisturbed_handlerReturn h)

/-- The timer expires.  Before it is disarmed `do_sig` handles `SIGALRM`, so that it becomes
pending. -/
theorem Inv.expire (hinv : Inv e s) (hinside : s.pc.inside = true) (halarm : s.alarm ≠ none) :
    Inv e { s with alarm := none, signals := s.signals.generate sigalrm } := by
  have hpend : ∀ {oldact}, Catching e s.signals oldact → s.signals.generate sigalrm =
      { s.signals with pending := insert sigalrm s.signals.pending } := fun hcatch =>
    Signals.generate_handled (congrArg Action.disposition hcatch.action)
  have harmed : Armed none { s.signals with pending := insert sigalrm s.signals.pending } :=
    .inr (Finset.mem_insert_self ..)
  unfold Inv at hinv ⊢
  cases hpc : s.pc with
  | line19 =>
    rw [hpc] at hinv
    simp only [hpend hinv.1]
    exact ⟨⟨hinv.1.action, hinv.1.oldact⟩, hinv.2⟩
  | line21 =>
    rw [hpc] at hinv
    obtain ⟨hcatch, hguard, hblocks⟩ := hinv
    simp only [hpend hcatch]
    exact ⟨⟨hcatch.action, hcatch.oldact⟩, ⟨hguard.base, hguard.oldmask⟩, hblocks⟩
  | line25 =>
    rw [hpc] at hinv
    obtain ⟨hcatch, hguard, hblocks, -⟩ := hinv
    simp only [hpend hcatch]
    exact ⟨⟨hcatch.action, hcatch.oldact⟩, ⟨hguard.base, hguard.oldmask⟩, hblocks, harmed⟩
  | suspended =>
    rw [hpc] at hinv
    obtain ⟨hcatch, hwaiting, -⟩ := hinv
    simp only [hpend hcatch]
    exact ⟨⟨hcatch.action, hcatch.oldact⟩,
      ⟨hwaiting.frames, hwaiting.mask, hwaiting.saved, hwaiting.oldmask⟩, harmed⟩
  | line27 =>
    rw [hpc] at hinv
    simp only [hpend hinv.1]
    exact ⟨⟨hinv.1.action, hinv.1.oldact⟩, ⟨hinv.2.base, hinv.2.oldmask⟩⟩
  | line29 =>
    rw [hpc] at hinv
    exact absurd hinv.2.2 halarm
  | line30 | line31 =>
    rw [hpc] at hinv
    exact absurd hinv.2.2.1 halarm
  | line14 | returned | terminated => simp [hpc, Pc.inside] at hinside

/-- Another signal is delivered. -/
theorem Inv.deliver_other {sig : ℕ} (hinv : Inv e s) (hinside : s.pc.inside = true)
    (hsig : sig ≠ sigalrm) (h : s.deliver sig = some s') : Inv e s' := by
  obtain ⟨⟨d, g'⟩, hdeliver, rfl⟩ := Option.map_eq_some_iff.mp h
  by_cases hwait : s.pc = .suspended
  · rw [if_pos hwait] at hdeliver
    unfold Inv at hinv ⊢
    rw [hwait] at hinv
    obtain ⟨hcatch, hwaiting, harmed⟩ := hinv
    obtain ⟨-, -, -, hpending, hcases⟩ := Signals.deliver_cases hdeliver
    obtain ⟨f, rfl, -, haction, hframes⟩ | ⟨hnone, hmask, haction, hframes⟩ := hcases
    · -- the handler ends the wait, and will restore the mask from before
      simp only [hwait, pcAfter, if_true]
      refine ⟨⟨?_, hcatch.oldact⟩, ⟨?_, hwaiting.oldmask⟩⟩
      · rw [haction, Function.update_of_ne hsig.symm, hcatch.action]
      · rw [Signals.base, hframes, hwaiting.frames]
        exact hwaiting.saved
    · cases d with
      | dfl => trivial
      | handle f => exact absurd rfl (hnone f)
      | ign =>
        simp only [hwait, pcAfter]
        refine ⟨⟨?_, hcatch.oldact⟩, ⟨hframes.trans hwaiting.frames, hmask.trans hwaiting.mask,
          hwaiting.saved, hwaiting.oldmask⟩, harmed.imp_right fun hmem => ?_⟩
        · rw [haction, hcatch.action]
        · rw [hpending]
          exact Finset.mem_erase.mpr ⟨hsig.symm, hmem⟩
  · rw [if_neg hwait] at hdeliver
    have hrest := hinv.undisturbed hinside hwait (undisturbed_deliver hsig hdeliver)
    cases d with
    | dfl => trivial
    | ign => exact hrest
    | handle f =>
      simp only [pcAfter, if_neg hwait]
      exact hrest

/-- `SIGALRM` is delivered: to `do_sig`, or, when the action of the caller is back, to the
caller. -/
theorem Inv.deliver_alarm (hinv : Inv e s) (hinside : s.pc.inside = true)
    (h : s.deliver sigalrm = some s') : Inv e s' := by
  obtain ⟨⟨d, g'⟩, hdeliver, rfl⟩ := Option.map_eq_some_iff.mp h
  have hunblocked : sigalrm ∉ s.signals.mask := (Signals.deliver_cases hdeliver).2.1
  unfold Inv at hinv ⊢
  cases hpc : s.pc with
  | line19 =>
    rw [hpc] at hinv
    rw [if_neg (by simp [hpc])] at hdeliver
    obtain ⟨rfl, hcatch, -⟩ := hinv.1.deliver hdeliver
    exact ⟨hcatch, (Signals.deliver_base hdeliver).trans hinv.2⟩
  | line21 =>
    rw [hpc] at hinv
    exact absurd hinv.2.2.mem_mask hunblocked
  | line25 =>
    rw [hpc] at hinv
    exact absurd hinv.2.2.1.mem_mask hunblocked
  | suspended =>
    rw [hpc] at hinv
    rw [if_pos hpc] at hdeliver
    obtain ⟨hcatch, hwaiting, -⟩ := hinv
    obtain ⟨rfl, hcatch', hframes⟩ := hcatch.deliver hdeliver
    refine ⟨hcatch', ⟨?_, hwaiting.oldmask⟩⟩
    rw [Signals.base, hframes, hwaiting.frames]
    exact hwaiting.saved
  | line27 =>
    rw [hpc] at hinv
    rw [if_neg (by simp [hpc])] at hdeliver
    obtain ⟨rfl, hcatch, -⟩ := hinv.1.deliver hdeliver
    exact ⟨hcatch, (Signals.deliver_base hdeliver).trans hinv.2.base, hinv.2.oldmask⟩
  | line29 =>
    rw [hpc] at hinv
    rw [if_neg (by simp [hpc])] at hdeliver
    obtain ⟨hcatch, hguard, halarm⟩ := hinv
    obtain ⟨rfl, hcatch', -⟩ := hcatch.deliver hdeliver
    exact ⟨hcatch', ⟨(Signals.deliver_base hdeliver).trans hguard.base, hguard.oldmask⟩, halarm⟩
  | line30 =>
    rw [hpc] at hinv
    exact absurd hinv.2.1.mem_mask hunblocked
  | line31 =>
    rw [hpc] at hinv
    rw [if_neg (by simp [hpc])] at hdeliver
    obtain ⟨hbase, hblocks, halarm, hrest⟩ := hinv
    have hmask : sigalrm ∉ e.mask := fun hmem => hunblocked (hblocks hmem).mem_mask
    obtain ⟨hpending, -, hd, hpending', hcases⟩ := Signals.deliver_cases hdeliver
    rcases hrest with hrestored | hspent
    · obtain ⟨hlate, hnotign⟩ := hrestored.pending.mp hpending
      rw [hrestored.action] at hd hcases
      obtain ⟨f, rfl, -, haction, -⟩ | ⟨hnone, -⟩ := hcases
      · refine ⟨(Signals.deliver_base hdeliver).trans hbase, fun hmem => absurd hmem hmask, halarm,
          .inr ⟨hlate, hmask, ⟨f, hd.symm⟩, ?_, ?_⟩⟩
        · rw [haction, Function.update_self]
        · rw [hpending']
          exact Finset.notMem_erase sigalrm s.signals.pending
      · cases d with
        | dfl => trivial
        | ign => exact absurd hd.symm hnotign
        | handle f => exact absurd rfl (hnone f)
    · exact absurd hpending hspent.pending
  | line14 | returned | terminated => simp [hpc, Pc.inside] at hinside

/-! ## All interleavings -/

/-- What a step can be. -/
theorem next_cases {nSecs : ℕ} {l : Label} (h : next nSecs s l = some s') :
    (l = .line ∧ s.signals.frames = [] ∧ s.signals.Quiet ∧ s.line nSecs = some s') ∨
    (s.pc.inside = true ∧
      ((l = .expire ∧ s.alarm ≠ none ∧
          s' = { s with alarm := none, signals := s.signals.generate sigalrm }) ∨
        (∃ sig, l = .generate sig ∧ sig ≠ sigalrm ∧
          s' = { s with signals := s.signals.generate sig }) ∨
        (∃ sig, l = .deliver sig ∧ s.deliver sig = some s') ∨
        (∃ g, l = .handlerReturn ∧ s.signals.handlerReturn = some g ∧
          s' = { s with signals := g }))) := by
  unfold next at h
  cases l with
  | line =>
    obtain ⟨hcond, hline⟩ := Option.ite_none_right_eq_some.mp h
    exact .inl ⟨rfl, hcond.1, hcond.2, hline⟩
  | expire =>
    obtain ⟨hcond, hs'⟩ := Option.ite_none_right_eq_some.mp h
    exact .inr ⟨hcond.1, .inl ⟨rfl, hcond.2, (Option.some.inj hs').symm⟩⟩
  | generate sig =>
    obtain ⟨hcond, hs'⟩ := Option.ite_none_right_eq_some.mp h
    exact .inr ⟨hcond.1, .inr (.inl ⟨sig, rfl, hcond.2, (Option.some.inj hs').symm⟩)⟩
  | deliver sig =>
    obtain ⟨hcond, hs'⟩ := Option.ite_none_right_eq_some.mp h
    exact .inr ⟨hcond, .inr (.inr (.inl ⟨sig, rfl, hs'⟩))⟩
  | handlerReturn =>
    obtain ⟨hcond, hs'⟩ := Option.ite_none_right_eq_some.mp h
    obtain ⟨g, hg, rfl⟩ := Option.map_eq_some_iff.mp hs'
    exact .inr ⟨hcond.1, .inr (.inr (.inr ⟨g, rfl, hg, rfl⟩))⟩

theorem Inv.step {nSecs : ℕ} (hpos : 0 < nSecs) {l : Label} (hinv : Inv e s)
    (h : next nSecs s l = some s') : Inv e s' := by
  obtain ⟨-, hframes, hquiet, hline⟩ | ⟨hinside, hevent⟩ := next_cases h
  · exact hinv.line hpos hframes hquiet hline
  obtain ⟨-, halarm, rfl⟩ | ⟨sig, -, hsig, rfl⟩ | ⟨sig, -, hdeliver⟩ | ⟨g, -, hreturn, rfl⟩ :=
    hevent
  · exact hinv.expire hinside halarm
  · exact hinv.generate hinside hsig
  · by_cases hsig : sig = sigalrm
    · subst hsig
      exact hinv.deliver_alarm hinside hdeliver
    · exact hinv.deliver_other hinside hsig hdeliver
  · exact hinv.handlerReturn hinside hreturn

theorem inv_of_run {nSecs : ℕ} (hpos : 0 < nSecs) {callerAlarm : Bool}
    {h : List (Event Mysleep Label)} (hrun : (program nSecs e callerAlarm).Run h s) : Inv e s := by
  refine hrun.invariant (I := Inv e) ?_ fun s l s' _ hstep hinv => hinv.step hpos hstep
  rintro s rfl
  exact inv_start e callerAlarm

/-! ## The alarm is not missed -/

/-- While `mysleep` waits its alarm is still to come or can be delivered to `do_sig`, and when
it returns the mask and the action for `SIGALRM` are those of the caller and its timer is not
armed. -/
structure NeverMisses (e : Signals ℕ Handler) (s : Mysleep) : Prop where
  waits : s.pc = .suspended → (s.alarm = some .mysleep ∨ sigalrm ∈ s.signals.pending) ∧
    sigalrm ∉ s.signals.mask ∧ s.signals.action sigalrm = newact
  returns : s.pc = .returned → s.signals.mask = e.mask ∧
    s.signals.action sigalrm = e.action sigalrm ∧ s.alarm ≠ some .mysleep

/-- The caller has an action for `SIGALRM` that is good for one delivery, and a late `SIGALRM`
takes it. -/
def SpendsAction (e : Signals ℕ Handler) (s : Mysleep) : Prop :=
  s.late = true ∧ sigalrm ∉ e.mask ∧ (e.action sigalrm).oneShot = true ∧
    ∃ f, (e.action sigalrm).disposition = .handle f

/-- An action that resets itself is not the same afterwards. -/
theorem taken_eq_iff {a : Action ℕ Handler} {f : Handler} (hf : a.disposition = .handle f) :
    a.taken = a ↔ a.oneShot = false := by
  obtain ⟨d, blocks, oneShot⟩ := a
  obtain rfl := hf
  cases oneShot with
  | true => simp [Action.taken]
  | false => simp [Action.taken]

/-- **`mysleep` never misses its alarm, and leaves the process as it was unless a late `SIGALRM`
takes an action of the caller that resets itself.** -/
theorem never_misses_iff (nSecs : ℕ) (hpos : 0 < nSecs) (e : Signals ℕ Handler)
    (callerAlarm : Bool) (h : List (Event Mysleep Label)) (s : Mysleep)
    (hrun : (program nSecs e callerAlarm).Run h s) :
    NeverMisses e s ↔ (s.pc = .returned → ¬ SpendsAction e s) := by
  have hinv := inv_of_run hpos hrun
  unfold Inv at hinv
  constructor
  · rintro hnever hpc ⟨hlate, hmask, honce, f, hf⟩
    rw [hpc] at hinv
    obtain ⟨hmask', hquiet, -, hrestored | hspent⟩ := hinv
    · -- pending and not blocked: it would have been delivered
      have hpending := hrestored.pending.mpr ⟨hlate, by simp [hf]⟩
      exact hmask (hmask' ▸ hquiet sigalrm hpending)
    · have htaken := hspent.action.symm.trans (hnever.returns hpc).2.1
      rw [taken_eq_iff hf, honce] at htaken
      cases htaken
  · intro hkeeps
    refine ⟨fun hpc => ?_, fun hpc => ?_⟩
    · rw [hpc] at hinv
      obtain ⟨hcatch, hwaiting, harmed⟩ := hinv
      refine ⟨harmed, ?_, hcatch.action⟩
      rw [hwaiting.mask]
      exact Finset.notMem_erase sigalrm e.mask
    · have hkeep := hkeeps hpc
      rw [hpc] at hinv
      obtain ⟨hmask, -, halarm, hrest⟩ := hinv
      refine ⟨hmask, ?_, by simp [halarm]⟩
      rcases hrest with hrestored | hspent
      · exact hrestored.action
      · obtain ⟨f, hf⟩ := hspent.handled
        rw [hspent.action, taken_eq_iff hf, ← Bool.not_eq_true]
        exact fun honce => hkeep ⟨hspent.late, hspent.unblocked, honce, f, hf⟩

/-- A caller that leaves `SIGALRM` at its default and handles signal 10, `SIGUSR1`. -/
def defaults : Signals ℕ Handler where
  mask := ∅
  pending := ∅
  action sig := ⟨if sig = 10 then .handle (.other 0) else .dfl, {sig}, false⟩
  frames := []

/-- A caller whose actions reset themselves. -/
def oneShots : Signals ℕ Handler where
  mask := ∅
  pending := ∅
  action sig := ⟨.handle (.other 0), {sig}, true⟩
  frames := []

/-- The alarm ends the wait, and `mysleep` returns. -/
def inTime : List Label :=
  List.replicate 4 .line ++ [.expire, .deliver sigalrm, .handlerReturn] ++ List.replicate 4 .line

/-- `SIGUSR1` ends the wait, the timer expires before `alarm(0)`, and `SIGALRM` is delivered when
the mask is restored. -/
def tooLate : List Label :=
  List.replicate 4 .line ++ [.generate 10, .deliver 10, .handlerReturn, .expire] ++
    List.replicate 3 .line ++ [.deliver sigalrm]

theorem never_misses_in_time : ∃ h s, (program 1 defaults false).Run h s ∧ s.pc = .returned ∧
    NeverMisses defaults s := by
  obtain ⟨h, s, hrun, htest⟩ := System.exists_run_of_exec (start defaults false) (next 1) inTime
    (fun _ s => decide (s.pc = .returned ∧ s.late = false)) (by decide +kernel)
  obtain ⟨hpc, hlate⟩ := of_decide_eq_true htest
  refine ⟨h, s, hrun, hpc, ?_⟩
  refine (never_misses_iff 1 one_pos defaults false h s hrun).mpr fun _ hspends => ?_
  rw [hspends.1] at hlate
  cases hlate

/-- The action of the caller is gone when `mysleep` returns. -/
theorem resets_action_of_caller : ¬ ∀ (nSecs : ℕ), 0 < nSecs → ∀ (e : Signals ℕ Handler)
    (callerAlarm : Bool) (h : List (Event Mysleep Label)) (s : Mysleep),
    (program nSecs e callerAlarm).Run h s → NeverMisses e s := by
  intro hclaim
  obtain ⟨h, s, hrun, htest⟩ := System.exists_run_of_exec (start oneShots false) (next 1)
    (tooLate ++ [.handlerReturn, .line])
    (fun _ s => decide (s.pc = .returned ∧ (s.signals.action sigalrm).disposition = .dfl))
    (by decide +kernel)
  obtain ⟨hpc, hdfl⟩ := of_decide_eq_true htest
  rw [((hclaim 1 one_pos oneShots false h s hrun).returns hpc).2.1] at hdfl
  cases hdfl

/-! ## The alarm is contained -/

/-- A delivery to `do_sig`, before the action of the caller is back. -/
def Delivery.Contained (d : Delivery) : Prop :=
  d.restored = false ∧ d.disposition = .handle .doSig

/-- `SIGALRM` has been delivered to `do_sig` only, and is not pending when `mysleep` returns. -/
structure Contained (s : Mysleep) : Prop where
  deliveries : ∀ d ∈ s.deliveries, d.Contained
  returns : s.pc = .returned → sigalrm ∉ s.signals.pending

/-- Line 29 has not been executed. -/
def Pc.early : Pc → Bool
  | .line30 | .line31 | .returned | .terminated => false
  | _ => true

/-- The record of the deliveries: up to line 29 they are to `do_sig`, and so are those after it
unless there is a late `SIGALRM`, which stays pending until it is delivered to the caller. -/
structure Log (e : Signals ℕ Handler) (s : Mysleep) : Prop where
  early : s.pc.early = true → s.late = false
  contained : s.late = false ∨ (e.action sigalrm).disposition = .ign →
    ∀ d ∈ s.deliveries, d.Contained
  escapes : s.late = true → (e.action sigalrm).disposition ≠ .ign →
    sigalrm ∈ s.signals.pending ∨ ∃ d ∈ s.deliveries, d.restored = true

theorem log_start (e : Signals ℕ Handler) (callerAlarm : Bool) : Log e (start e callerAlarm) where
  early _ := rfl
  contained _ := by simp [start]
  escapes h := by cases h

/-- A step that delivers nothing and is not line 29. -/
theorem Log.quiet (hlog : Log e s) (hearly : s'.pc.early = true → s.pc.early = true)
    (hlate : s'.late = s.late) (hdeliveries : s'.deliveries = s.deliveries)
    (hpending : sigalrm ∈ s.signals.pending → sigalrm ∈ s'.signals.pending) : Log e s' := by
  refine ⟨fun h => ?_, ?_, ?_⟩
  · rw [hlate]
    exact hlog.early (hearly h)
  · rw [hlate, hdeliveries]
    exact hlog.contained
  · rw [hlate, hdeliveries]
    exact fun h hign => (hlog.escapes h hign).imp_left hpending

theorem Log.line {nSecs : ℕ} (hlog : Log e s) (hinv : Inv e s)
    (hstep : s.line nSecs = some s') : Log e s' := by
  unfold Mysleep.line at hstep
  cases hpc : s.pc with
  | line29 =>
    rw [hpc] at hstep
    obtain rfl := Option.some.inj hstep
    unfold Inv at hinv
    rw [hpc] at hinv
    have hlate : s.late = false := hlog.early (by rw [hpc]; rfl)
    refine ⟨fun h => (by cases h), fun _ => hlog.contained (.inl hlate), fun h hign => .inl ?_⟩
    refine Signals.mem_pending_sigaction.mpr ⟨of_decide_eq_true h, ?_⟩
    rwa [hinv.1.oldact]
  | line14 =>
    rw [hpc] at hstep
    obtain rfl := Option.some.inj hstep
    refine hlog.quiet (fun _ => by rw [hpc]; rfl) rfl rfl fun h => ?_
    exact Signals.mem_pending_sigaction.mpr ⟨h, by simp [newact]⟩
  | line19 | line21 | line25 | line27 =>
    rw [hpc] at hstep
    obtain rfl := Option.some.inj hstep
    exact hlog.quiet (fun _ => by rw [hpc]; rfl) rfl rfl id
  | line30 | line31 =>
    rw [hpc] at hstep
    obtain rfl := Option.some.inj hstep
    exact hlog.quiet (fun h => by cases h) rfl rfl id
  | suspended | returned | terminated => simp [hpc] at hstep

/-- No delivery leads back. -/
theorem early_of_pcAfter {pc : Pc} {d : Disposition Handler}
    (h : (pcAfter pc d).early = true) : pc.early = true := by
  cases d with
  | dfl => cases h
  | ign => exact h
  | handle f =>
    by_cases hwait : pc = .suspended
    · rw [hwait]
      rfl
    · simpa only [pcAfter, if_neg hwait] using h

/-- A delivery of another signal. -/
theorem Log.deliver_other {sig : ℕ} (hlog : Log e s) (hsig : sig ≠ sigalrm)
    (h : s.deliver sig = some s') : Log e s' := by
  obtain ⟨⟨d, g'⟩, hdeliver, rfl⟩ := Option.map_eq_some_iff.mp h
  have hpending := (Signals.deliver_cases hdeliver).2.2.2.1
  refine hlog.quiet early_of_pcAfter rfl (if_neg hsig) fun hmem => ?_
  show sigalrm ∈ g'.pending
  rw [hpending]
  exact Finset.mem_erase.mpr ⟨hsig.symm, hmem⟩

/-- Where `SIGALRM` can be delivered: `do_sig` handles it, or it is a late one. -/
theorem Inv.alarm_cases (hinv : Inv e s) (hinside : s.pc.inside = true)
    (hpending : sigalrm ∈ s.signals.pending) (hmask : sigalrm ∉ s.signals.mask) :
    (s.pc.early = true ∧ s.pc.restored = false ∧ Catching e s.signals s.oldact) ∨
      (s.pc.early = false ∧ s.pc.restored = true ∧ s.late = true ∧
        (e.action sigalrm).disposition ≠ .ign) := by
  unfold Inv at hinv
  cases hpc : s.pc with
  | line19 | line21 | line25 | suspended | line27 | line29 =>
    rw [hpc] at hinv
    exact .inl ⟨rfl, rfl, hinv.1⟩
  | line30 =>
    rw [hpc] at hinv
    exact absurd hinv.2.1.mem_mask hmask
  | line31 =>
    rw [hpc] at hinv
    rcases hinv.2.2.2 with hrestored | hspent
    · exact .inr ⟨rfl, rfl, hrestored.pending.mp hpending⟩
    · exact absurd hpending hspent.pending
  | line14 | returned | terminated => simp [hpc, Pc.inside] at hinside

/-- The delivery of `SIGALRM` that is recorded. -/
theorem Log.deliver_alarm (hlog : Log e s) (hinv : Inv e s) (hinside : s.pc.inside = true)
    (h : s.deliver sigalrm = some s') : Log e s' := by
  obtain ⟨⟨d, g'⟩, hdeliver, rfl⟩ := Option.map_eq_some_iff.mp h
  obtain ⟨hpending, hmask, -⟩ := Signals.deliver_cases hdeliver
  rcases hinv.alarm_cases hinside hpending hmask with
    ⟨hearly, hrestored, hcatch⟩ | ⟨hearly, hrestored, hlate, hign⟩
  · obtain ⟨rfl, -⟩ := hcatch.deliver hdeliver
    have hlate := hlog.early hearly
    refine ⟨fun _ => hlate, fun _ => ?_, fun h => by simp [hlate] at h⟩
    show ∀ d ∈ s.deliveries ++ [⟨.handle .doSig, s.pc.restored⟩], d.Contained
    rw [List.forall_mem_append, List.forall_mem_singleton]
    exact ⟨hlog.contained (.inl hlate), hrestored, rfl⟩
  · refine ⟨fun h => ?_, fun h => ?_, fun _ _ => .inr ⟨⟨d, s.pc.restored⟩, ?_, hrestored⟩⟩
    · rw [early_of_pcAfter h] at hearly
      cases hearly
    · rcases h with h | h
      · simp [hlate] at h
      · exact absurd h hign
    · exact List.mem_append_right _ (List.mem_singleton_self _)

theorem Log.step {nSecs : ℕ} {l : Label} (hlog : Log e s) (hinv : Inv e s)
    (h : next nSecs s l = some s') : Log e s' := by
  obtain ⟨-, -, -, hline⟩ | ⟨hinside, hevent⟩ := next_cases h
  · exact hlog.line hinv hline
  obtain ⟨-, -, rfl⟩ | ⟨sig, -, hsig, rfl⟩ | ⟨sig, -, hdeliver⟩ | ⟨g, -, hreturn, rfl⟩ := hevent
  · exact hlog.quiet id rfl rfl Signals.mem_pending_generate
  · exact hlog.quiet id rfl rfl Signals.mem_pending_generate
  · by_cases hsig : sig = sigalrm
    · subst hsig
      exact hlog.deliver_alarm hinv hinside hdeliver
    · exact hlog.deliver_other hsig hdeliver
  · exact hlog.quiet id rfl rfl (undisturbed_handlerReturn hreturn).pending.mpr

theorem log_of_run {nSecs : ℕ} (hpos : 0 < nSecs) {callerAlarm : Bool}
    {h : List (Event Mysleep Label)} (hrun : (program nSecs e callerAlarm).Run h s) :
    Inv e s ∧ Log e s := by
  refine hrun.invariant (I := fun s => Inv e s ∧ Log e s) ?_ ?_
  · rintro s rfl
    exact ⟨inv_start e callerAlarm, log_start e callerAlarm⟩
  · intro s l s' _ hstep hboth
    exact ⟨hboth.1.step hpos hstep, hboth.2.step hboth.1 hstep⟩

/-- **`mysleep` contains its alarm exactly when it is not late**, or the caller ignores it: unless
`SIGALRM` was pending when the action of the caller was restored, it is delivered to `do_sig`
only and is not pending at the end; otherwise, once it is not pending any more, it has been
delivered under that action. -/
theorem contains_alarm_iff (nSecs : ℕ) (hpos : 0 < nSecs) (e : Signals ℕ Handler)
    (callerAlarm : Bool) (h : List (Event Mysleep Label)) (s : Mysleep)
    (hrun : (program nSecs e callerAlarm).Run h s) :
    (s.late = false ∨ (e.action sigalrm).disposition = .ign → Contained s) ∧
      (sigalrm ∉ s.signals.pending → Contained s →
        s.late = false ∨ (e.action sigalrm).disposition = .ign) := by
  obtain ⟨hinv, hlog⟩ := log_of_run hpos hrun
  constructor
  · intro hcond
    refine ⟨hlog.contained hcond, fun hpc hpending => ?_⟩
    unfold Inv at hinv
    rw [hpc] at hinv
    rcases hinv.2.2.2 with hrestored | hspent
    · obtain ⟨hlate, hign⟩ := hrestored.pending.mp hpending
      rcases hcond with hcond | hcond
      · rw [hlate] at hcond
        cases hcond
      · exact hign hcond
    · exact hspent.pending hpending
  · intro hpending hcontained
    by_contra hcond
    obtain ⟨hlate, hign⟩ := not_or.mp hcond
    rw [Bool.not_eq_false] at hlate
    obtain hmem | ⟨d, hd, hrestored⟩ := hlog.escapes hlate hign
    · exact hpending hmem
    · rw [(hcontained.deliveries d hd).1] at hrestored
      cases hrestored

theorem contains_alarm_in_time : ∃ h s, (program 1 defaults false).Run h s ∧
    s.pc = .returned ∧ s.deliveries = [⟨.handle .doSig, false⟩] ∧ Contained s := by
  obtain ⟨h, s, hrun, htest⟩ := System.exists_run_of_exec (start defaults false) (next 1) inTime
    (fun _ s => decide (s.pc = .returned ∧ s.late = false ∧
      s.deliveries = [⟨.handle .doSig, false⟩])) (by decide +kernel)
  obtain ⟨hpc, hlate, hdeliveries⟩ := of_decide_eq_true htest
  exact ⟨h, s, hrun, hpc, hdeliveries,
    (contains_alarm_iff 1 one_pos defaults false h s hrun).1 (.inl hlate)⟩

/-- The late `SIGALRM` terminates the process. -/
theorem late_alarm_terminates : ¬ ∀ (nSecs : ℕ), 0 < nSecs → ∀ (e : Signals ℕ Handler),
    sigalrm ∉ e.mask → sigalrm ∉ e.pending → ∀ (h : List (Event Mysleep Label)) (s : Mysleep),
    (program nSecs e false).Run h s → Contained s := by
  intro hclaim
  obtain ⟨h, s, hrun, htest⟩ := System.exists_run_of_exec (start defaults false) (next 1) tooLate
    (fun _ s => decide (s.pc = .terminated ∧ ⟨.dfl, true⟩ ∈ s.deliveries)) (by decide +kernel)
  obtain ⟨-, hmem⟩ := of_decide_eq_true htest
  have hcontained := hclaim 1 one_pos defaults (by simp [defaults]) (by simp [defaults]) h s hrun
  cases (hcontained.deliveries _ hmem).1

end LinuxExercise.Mysleep
