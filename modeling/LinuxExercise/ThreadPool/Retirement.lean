import LinuxExercise.ThreadPool.Counters

/-!
# Growth and retirement in one tick of the manager

The manager decides about retirement by its local `pthread_alive_num`.  The snapshot of line 214
reads `thread_min_num` into it, since nothing ever changes the pool's counter, and line 227
raises it by the workers that the tick creates.  So the test of line 239 cannot succeed in a
tick that created nobody: the manager asks workers to retire exactly in some of the ticks that
grow the pool, and `never_both_iff` says in which.

The busy count is never lowered either, so that the product of line 239 leaves the range of an
`int` when `2 ^ 30` tasks have been begun.  C says nothing about the program from then on, and
neither does `never_both_iff`.
-/

namespace LinuxExercise.ThreadPool

/-! ## What happens in an iteration -/

/-- The statement that the manager executes in the step. -/
def managerPc (e : Event State Label) : Option AdjustPc :=
  match e.label with
  | .adjust _ _ => some e.pre.adjust.pc
  | _ => none

/-- The workers created since the iteration began. -/
def tickGrowth (h : History) : ℕ :=
  h.foldl (fun n e => if managerPc e = some .whileShutdown then 0
    else if isGrowth e then n + 1 else n) 0

/-- The step sets `pthread_wait_exit_num` or sends one of the signals of lines 245-246. -/
def asksToRetire (e : Event State Label) : Prop :=
  managerPc e = some .setWaitExit ∨
    managerPc e = some .signal ∧ e.pre.adjust.i < defaultThreadNum

/-- No iteration that has created a worker asks workers to retire. -/
def NeverBoth (h : History) : Prop :=
  System.EachStep (fun h₀ e => asksToRetire e → tickGrowth h₀ = 0) h

/-- The step is line 197. -/
def beginsTask (e : Event State Label) : Bool :=
  match e.label with
  | .work i => (e.pre.workers[i]?).any fun w => decide (w.pc = .incBusy)
  | _ => false

/-- When the manager reads the busy count after a growth, at least half as many tasks have been
begun as there are workers. -/
def EnoughBegun (c : Config) (h : History) : Prop :=
  System.EachStep (fun h₀ e => managerPc e = some .readBusy → 0 < tickGrowth h₀ →
    c.threadMinNum + tickGrowth h₀ ≤ 2 * h₀.countP beginsTask) h

instance (c : Config) (h : History) : Decidable (EnoughBegun c h) :=
  inferInstanceAs (Decidable (System.EachStep _ h))

theorem tickGrowth_snoc (h : History) (e : Event State Label) :
    tickGrowth (h ++ [e]) = if managerPc e = some .whileShutdown then 0
      else if isGrowth e then tickGrowth h + 1 else tickGrowth h := by
  simp [tickGrowth]

/-- Nothing lowers `pthread_busy_num`, so it counts the tasks begun. -/
theorem busy_eq_begun {c : Config} {m : Memory} {h : History} {s : State}
    (hrun : (threadpool c m).Run h s) : s.pool.pthreadBusyNum = h.countP beginsTask := by
  refine hrun.ledger (J := fun h s => s.pool.pthreadBusyNum = h.countP beginsTask) ?_ ?_
  · rintro s rfl
    rfl
  · intro h s l s' _ hstep ih
    have hstepped := stepped_of_run hstep
    rw [List.countP_append, List.countP_singleton]
    by_cases hwork : ∃ i, l = .work i
    · obtain ⟨i, rfl⟩ := hwork
      cases hstepped with
      | @work i w w' p e _ hw hwork happ =>
        have hbegins : beginsTask ⟨s, .work i, s'⟩ = decide (w.pc = .incBusy) := by
          simp [beginsTask, hw]
        have hbusy : p.pthreadBusyNum =
            s.pool.pthreadBusyNum + if w.pc = .incBusy then 1 else 0 := by
          obtain ⟨pc, task, number⟩ := w
          cases pc <;> simp only [threadpoolThread] at hwork
          all_goals try split at hwork
          all_goals cases hwork
          all_goals simp
        rw [(applied_of_apply happ).pool, hbegins]
        show p.pthreadBusyNum = _
        rw [hbusy, ih]
        by_cases hpc : w.pc = .incBusy <;> simp [hpc]
    · have hother : ∀ i, l ≠ .work i := fun i hl => hwork ⟨i, hl⟩
      have hbegins : beginsTask ⟨s, l, s'⟩ = false := by
        cases l <;> first | rfl | exact absurd rfl (hother _)
      rw [hstepped.busy hother, ih, hbegins]
      simp

/-! ## One iteration -/

/-- What is known in an iteration that has created `g` workers, by where the manager is:
`enough` and `never` are the two conditions on the run so far. -/
def TickFacts (min g : ℕ) (enough never : Prop) (m : Adjust) : Prop :=
  match m.pc with
  | .whileShutdown | .sleep | .returned => enough ↔ never
  | .lockSnapshot | .readSize | .readAlive => g = 0 ∧ (enough ↔ never)
  | .unlockSnapshot | .ifBacklog | .lockGrow | .forSlot | .ifSlot | .create | .unlockGrow
  | .lockCounter | .readBusy => m.pthreadAliveNum = min + g ∧ (enough ↔ never)
  | .unlockCounter | .ifIdle => m.pthreadAliveNum = min + g ∧
      (enough ↔ never ∧ (0 < g → (min + g : ℤ) ≤ 2 * m.pthreadBusyNum))
  | .lockRetire | .setWaitExit => 0 < g ∧ ¬ enough
  | .unlockRetire | .signal => 0 < g ∧ ¬ enough ∧ ¬ never

/-- The product of line 239 is right as long as it fits an `int`. -/
theorem doubled_eq {pthreadBusyNum : ℤ} (hpos : 0 ≤ pthreadBusyNum)
    (hint : 2 * pthreadBusyNum ≤ intMax) : doubled pthreadBusyNum = pthreadBusyNum * 2 := by
  unfold intMax at hint
  exact Int.bmod_eq_of_le (by omega) (by omega)

/-- The workers created so far in the iteration after a statement of the manager. -/
def Adjust.grown (m : Adjust) (g : ℕ) : ℕ :=
  if m.pc = .whileShutdown then 0 else if m.pc = .create then g + 1 else g

theorem adjustThread_tickFacts {alive : Bool} {tid g b : ℕ} {p p' : Pool} {m m' : Adjust}
    {e : Effect} {enough never : Prop} (h : adjustThread alive tid p m = some (p', m', e))
    (halive : p.pthreadAliveNum = p.pthreadMinNum) (hbusy : p.pthreadBusyNum = b)
    (hdoubled : doubled m.pthreadBusyNum = m.pthreadBusyNum * 2)
    (hfacts : TickFacts p.pthreadMinNum g enough never m) :
    TickFacts p.pthreadMinNum (m.grown g)
      (enough ∧ (m.pc = .readBusy → 0 < g → p.pthreadMinNum + g ≤ 2 * b))
      (never ∧ (m.pc = .setWaitExit ∨ m.pc = .signal ∧ m.i < defaultThreadNum → g = 0)) m' := by
  obtain ⟨pc, i, qs, al, ad, bu⟩ := m
  simp only at hdoubled
  cases pc <;> simp only [adjustThread] at h
  all_goals try split at h
  all_goals cases h
  all_goals simp only [TickFacts, Adjust.grown, reduceCtorEq, false_or, false_and,
    true_and, or_false, if_true, if_false, forall_const, false_implies, and_true] at hfacts ⊢
  case readAlive => exact ⟨by omega, hfacts.2⟩
  case create => exact ⟨by push_cast; omega, hfacts.2⟩
  case readBusy =>
    obtain ⟨hal, hiff⟩ := hfacts
    refine ⟨hal, and_congr hiff (imp_congr_right fun _ => ?_)⟩
    omega
  case ifIdle.isTrue htest =>
    obtain ⟨hal, hiff⟩ := hfacts
    rw [hdoubled] at htest
    refine ⟨by omega, fun henough => ?_⟩
    have hle := (hiff.1 henough).2 (by omega)
    omega
  case ifIdle.isFalse htest =>
    obtain ⟨hal, hiff⟩ := hfacts
    rw [hdoubled] at htest
    refine ⟨fun henough => (hiff.1 henough).1, fun hnever => hiff.2 ⟨hnever, fun hg => ?_⟩⟩
    by_contra hfew
    exact htest ⟨by omega, by omega⟩
  case setWaitExit =>
    obtain ⟨hg, hfew⟩ := hfacts
    exact ⟨hg, hfew, fun hnever => hg.ne' hnever.2⟩
  case signal.isTrue =>
    obtain ⟨hg, hfew, hboth⟩ := hfacts
    exact ⟨hg, hfew, fun hnever => hboth hnever.1⟩
  case signal.isFalse =>
    obtain ⟨-, hfew, hboth⟩ := hfacts
    exact ⟨fun henough => absurd henough hfew, fun hnever => absurd hnever.1 hboth⟩
  all_goals exact hfacts

/-! ## A whole run -/

/-- The facts about the iteration that the manager is in. -/
theorem tickFacts_of_run {c : Config} {m : Memory} {h : History} {s : State}
    (hrun : (threadpool c m).Run h s) (hint : 2 * (h.countP beginsTask : ℤ) ≤ intMax) :
    TickFacts c.threadMinNum (tickGrowth h) (EnoughBegun c h) (NeverBoth h) s.adjust := by
  refine hrun.ledger (J := fun h s => 2 * (h.countP beginsTask : ℤ) ≤ intMax →
    TickFacts c.threadMinNum (tickGrowth h) (EnoughBegun c h) (NeverBoth h) s.adjust) ?_ ?_ hint
  · rintro s rfl -
    exact iff_of_true (System.eachStep_nil _) (System.eachStep_nil _)
  · intro h s l s' hrun hstep ih hint
    have hfewer := (List.sublist_append_left h [⟨s, l, s'⟩]).countP_le (p := beginsTask)
    have hint₀ : 2 * (h.countP beginsTask : ℤ) ≤ intMax := by omega
    have ih := ih hint₀
    have hbusy := busy_eq_begun hrun
    obtain ⟨hread, hreadLe⟩ := adjust_busy_le hrun
    have hdoubled := doubled_eq hread (by omega)
    have halive := (noRetire_of_run hrun).alive
    have hmin : s.pool.pthreadMinNum = c.threadMinNum :=
      congrArg Config.threadMinNum (config_of_run hrun)
    have henough : EnoughBegun c (h ++ [⟨s, l, s'⟩]) ↔ EnoughBegun c h ∧
        (managerPc ⟨s, l, s'⟩ = some .readBusy → 0 < tickGrowth h →
          c.threadMinNum + tickGrowth h ≤ 2 * h.countP beginsTask) := System.eachStep_snoc
    have hnever : NeverBoth (h ++ [⟨s, l, s'⟩]) ↔
        NeverBoth h ∧ (asksToRetire ⟨s, l, s'⟩ → tickGrowth h = 0) := System.eachStep_snoc
    rw [henough, hnever, tickGrowth_snoc]
    -- Only the manager's own statements matter.
    have other : managerPc ⟨s, l, s'⟩ = none → isGrowth ⟨s, l, s'⟩ = false →
        s'.adjust = s.adjust → TickFacts c.threadMinNum
          (if managerPc ⟨s, l, s'⟩ = some .whileShutdown then 0
            else if isGrowth ⟨s, l, s'⟩ then tickGrowth h + 1 else tickGrowth h)
          (EnoughBegun c h ∧ (managerPc ⟨s, l, s'⟩ = some .readBusy → 0 < tickGrowth h →
            c.threadMinNum + tickGrowth h ≤ 2 * h.countP beginsTask))
          (NeverBoth h ∧ (asksToRetire ⟨s, l, s'⟩ → tickGrowth h = 0)) s'.adjust := by
      intro hpc hgrowth hadjust
      simpa [hpc, hgrowth, hadjust, asksToRetire] using ih
    cases stepped_of_run hstep with
    | call | wakeAdd | wakeWork => exact other rfl rfl rfl
    | add _ hadd happ => exact other rfl rfl (applied_of_apply happ).adjust
    | work _ hwork happ => exact other rfl rfl (applied_of_apply happ).adjust
    | destroy hdes happ => exact other rfl rfl (applied_of_apply happ).adjust
    | @adjust answer choice m p e _ hadj happ =>
      rw [← hmin] at ih ⊢
      have hfacts := adjustThread_tickFacts hadj halive hbusy hdoubled ih
      have hadjust : s'.adjust = m := (applied_of_apply happ).adjust
      rw [hadjust]
      simpa [managerPc, isGrowth, creates, asksToRetire, Adjust.grown] using hfacts

/-- The manager has read the busy count and has not acted on it yet. -/
def Adjust.isDeciding (m : Adjust) : Bool :=
  match m.pc with
  | .unlockCounter | .ifIdle | .lockRetire | .setWaitExit => true
  | _ => false

/-- **When a tick does not both grow the pool and ask workers to retire.**  It does not if at
least half as many tasks have been begun as there are workers whenever the manager reads the
busy count after a growth; and otherwise it does, once the manager has acted on what it read.
The tasks begun are few enough for the product of line 239 to fit an `int`. -/
theorem never_both_iff (c : Config) (m : Memory) (h : History) (s : State)
    (hrun : (threadpool c m).Run h s) (hint : 2 * (h.countP beginsTask : ℤ) ≤ intMax) :
    (EnoughBegun c h → NeverBoth h) ∧
      (s.adjust.isDeciding = false → NeverBoth h → EnoughBegun c h) := by
  have hfacts := tickFacts_of_run hrun hint
  generalize s.adjust = m at hfacts
  obtain ⟨pc, i, qs, al, ad, bu⟩ := m
  cases pc <;> simp only [TickFacts, Adjust.isDeciding] at hfacts ⊢
  case unlockCounter | ifIdle =>
    exact ⟨fun henough => (hfacts.2.1 henough).1, fun hdeciding => absurd hdeciding (by simp)⟩
  case lockRetire | setWaitExit =>
    exact ⟨fun henough => absurd henough hfacts.2, fun hdeciding => absurd hdeciding (by simp)⟩
  case unlockRetire | signal =>
    exact ⟨fun henough => absurd henough hfacts.2.1, fun _ hnever => absurd hnever hfacts.2.2⟩
  case whileShutdown | sleep | returned => exact ⟨hfacts.1, fun _ => hfacts.2⟩
  all_goals exact ⟨hfacts.2.1, fun _ => hfacts.2.2⟩

/-- Two tasks have been done when a backlog of five makes the manager create two workers. -/
theorem never_both_busy_pool : ∃ h s, (threadpool ⟨1, 3, 5⟩ .cleared).Run h s ∧
    h.countP isGrowth = 2 ∧ s.adjust.pc = .sleep ∧ NeverBoth h := by
  obtain ⟨h, s, hrun, hP⟩ := exists_run_of_schedule ⟨1, 3, 5⟩ .cleared
    (addSchedule 0 1 0 ++ addSchedule 1 1 0 ++ taskSchedule 0 ++ [.work 0] ++ taskSchedule 0 ++
      [.work 0] ++ addSchedule 2 1 0 ++ addSchedule 3 1 0 ++ addSchedule 4 1 0 ++
      addSchedule 5 1 0 ++ addSchedule 6 1 0 ++ List.replicate 21 (.adjust false 0))
    (fun h s => decide (h.countP isGrowth = 2) && decide (s.adjust.pc = .sleep) &&
      decide (h.countP beginsTask = 2) && decide (EnoughBegun ⟨1, 3, 5⟩ h)) (by decide +kernel)
  simp only [Bool.and_eq_true, decide_eq_true_eq] at hP
  obtain ⟨⟨⟨hgrowth, hpc⟩, hbegun⟩, henough⟩ := hP
  have hint : 2 * (h.countP beginsTask : ℤ) ≤ intMax := by
    rw [hbegun]
    decide
  exact ⟨h, s, hrun, hgrowth, hpc, (never_both_iff _ _ h s hrun hint).1 henough⟩

/-- The only worker has not started yet when a backlog of five makes the manager create two more;
it then finds that nobody is busy. -/
theorem grows_and_retires : ¬ ∀ (c : Config) (m : Memory) (h : History) (s : State),
    0 < c.threadMinNum → c.threadMinNum ≤ c.threadMaxNum → (threadpool c m).Run h s →
      NeverBoth h := by
  intro hclaim
  obtain ⟨h, s, hrun, hP⟩ := exists_run_of_schedule ⟨1, 3, 5⟩ .cleared
    (backlogSchedule ++ List.replicate 22 (.adjust false 0))
    (fun h s => decide (s.adjust.pc = .setWaitExit) && decide (tickGrowth h = 2))
    (by decide +kernel)
  simp only [Bool.and_eq_true, decide_eq_true_eq] at hP
  obtain ⟨hpc, hgrowth⟩ := hP
  obtain ⟨s', hstep⟩ : ∃ s', step s (.adjust false 0) = some s' := by
    simp [step, adjustThread, hpc, State.apply]
  have hnever := hclaim _ _ _ _ (by decide) (by decide) (hrun.step hstep)
  have hzero := (System.eachStep_snoc.1 hnever).2 (.inl (by simp [managerPc, hpc]))
  rw [hgrowth] at hzero
  cases hzero

end LinuxExercise.ThreadPool
