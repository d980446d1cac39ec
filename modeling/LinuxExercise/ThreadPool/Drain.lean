import LinuxExercise.Framework.Termination
import LinuxExercise.ThreadPool.Execution
import LinuxExercise.ThreadPool.Ownership
import LinuxExercise.ThreadPool.Progress
import LinuxExercise.ThreadPool.Wakeup

/-!
# A running pool drains

The calls and the workers of a pool that nobody destroys finish their work by themselves: the
statements they execute, with those the manager executes inside a critical section
(`State.isInternal`), can only be taken finitely often, and where none of them is left every
call has returned, every task has been executed and every worker sleeps.  The manager's other
statements, its signals among them, and spurious wake-ups are not needed, so nobody depends on
the manager to be woken.

Each of these statements lowers `State.budget`.  A worker goes round its loop again for every
task and a thread that is woken goes round the loop of its wait again, so a queued task is worth
`Pool.fare` statements, which pays for the worker that takes it and for the calls that its
broadcast wakes, and a call that has not been counted in is worth two of that.
-/

namespace LinuxExercise.ThreadPool

open Monitor

/-! ## The pool's own steps -/

/-- The steps that do the pool's work: the statements of calls and workers, and those of the
manager inside a critical section. -/
def isInternal (e : Event State Label) : Bool :=
  match e.label with
  | .add _ _ | .work _ => true
  | .adjust _ _ => e.pre.adjust.holds || (Local.manage e.pre.adjust).counts
  | .call _ _ | .destroy | .wakeAdd _ | .wakeWork _ => false

/-! ## Which calls have been counted in -/

/-- How a step changes a count of calls that wake-ups do not see, and what it accepts. -/
theorem Stepped.countP_adders {s s' : State} {l : Label} (h : Stepped s l s') {q : Adder → Bool}
    (hq : ∀ a, q a.wake = q a) :
    (∃ i choice a b e, l = .add i choice ∧ s.adders[i]? = some a ∧
      threadpoolAdd (.adder i) s.pool a = some (s'.pool, b, e) ∧
      s'.accepted = s.accepted ++ e.accepts ∧
      s'.adders.countP q + (if q a then 1 else 0) =
        s.adders.countP q + (if q b then 1 else 0)) ∨
    (s'.accepted = s.accepted ∧
      ((∃ f x, l = .call f x ∧ s'.adders = s.adders ++ [⟨.lock, f, x, false, 0⟩]) ∨
        s'.adders.countP q = s.adders.countP q)) := by
  have quiet : ∀ {s₁ e}, Applied s₁ e s' → s₁.adders = s.adders → s₁.accepted = s.accepted →
      e.accepts = [] → s'.accepted = s.accepted ∧ s'.adders.countP q = s.adders.countP q := by
    intro s₁ e hap hadders hacc he
    refine ⟨by rw [hap.accepted, he, List.append_nil, hacc], ?_⟩
    rw [hap.adders, hadders]
    split
    · rw [countP_map_of_eq hq]
    · rfl
  cases h with
  | call f x => exact .inr ⟨rfl, .inl ⟨f, x, rfl, rfl⟩⟩
  | @add i choice a a' p e _ ha hadd happ =>
    have hap := applied_of_apply happ
    have hpool : s'.pool = p := hap.pool
    refine .inl ⟨i, choice, a, a', e, rfl, ha, hpool ▸ hadd, hap.accepted, ?_⟩
    rw [hap.adders_of_add hadd]
    exact countP_set_add ha
  | work _ hwork happ =>
    obtain ⟨hacc, hcount⟩ :=
      quiet (applied_of_apply happ) rfl rfl (threadpoolThread_effect hwork).2.2.2.2.1
    exact .inr ⟨hacc, .inr hcount⟩
  | adjust hadj happ =>
    obtain ⟨hacc, hcount⟩ := quiet (applied_of_apply happ) rfl rfl
      (by rcases adjustThread_effect hadj with rfl | rfl | rfl <;> rfl)
    exact .inr ⟨hacc, .inr hcount⟩
  | destroy hdes happ =>
    obtain ⟨hacc, hcount⟩ := quiet (applied_of_apply happ) rfl rfl
      (by rcases threadpoolDestroy_effect hdes with rfl | rfl | rfl <;> rfl)
    exact .inr ⟨hacc, .inr hcount⟩
  | @wakeAdd i a ha _ =>
    have hcount := countP_set_add (p := q) (b := a.wake) ha
    rw [hq] at hcount
    exact .inr ⟨rfl, .inr (Nat.add_right_cancel hcount)⟩
  | wakeWork => exact .inr ⟨rfl, .inr rfl⟩

@[simp] theorem Adder.wake_task (a : Adder) : a.wake.task = a.task := by
  unfold Adder.wake
  split <;> rfl

theorem threadpoolAdd_task {me : Thread} {p p' : Pool} {a a' : Adder} {e : Effect}
    (h : threadpoolAdd me p a = some (p', a', e)) : a'.task = a.task := by
  obtain ⟨pc, f, x, released, unlocks⟩ := a
  cases pc <;> simp only [threadpoolAdd] at h
  all_goals try split at h
  all_goals cases h
  all_goals rfl

/-- The accepted tasks are those of the calls that have been counted in. -/
theorem count_accepted {c : Config} {m : Memory} {h : History} {s : State}
    (hrun : (threadpool c m).Run h s) (t : Task) :
    s.accepted.count t = s.adders.countP fun a => a.hasPassed && decide (a.task = t) := by
  refine hrun.invariant (I := fun s =>
    s.accepted.count t = s.adders.countP fun a => a.hasPassed && decide (a.task = t)) ?_ ?_
  · rintro s rfl
    rfl
  · intro s l s' _ hstep ih
    rcases (stepped_of_run hstep).countP_adders
        (q := fun a => a.hasPassed && decide (a.task = t)) (fun a => by simp) with
      ⟨i, choice, a, b, e, -, -, hadd, hacc, hcount⟩ | ⟨hacc, ⟨f, x, -, hadders⟩ | hcount⟩
    · rw [threadpoolAdd_task hadd] at hcount
      rw [hacc, List.count_append, ih]
      rcases threadpoolAdd_hasPassed hadd with ⟨he, hpass⟩ | ⟨he, hpass, hpass'⟩
      · rw [hpass] at hcount
        rw [he, List.count_nil]
        omega
      · rw [hpass, hpass'] at hcount
        rw [he, List.count_singleton]
        simp only [Bool.false_and, Bool.true_and, Bool.false_eq_true, if_false, decide_eq_true_eq,
          Nat.add_zero, beq_iff_eq] at hcount ⊢
        exact hcount.symm
    · rw [hacc, ih, hadders, List.countP_append]
      simp [Adder.hasPassed]
    · rw [hacc, ih, hcount]

/-! ## The budget -/

/-- The statements a call has left until it is blocked, is counted in or has returned; the
signal of line 139 also pays for the worker it wakes. -/
def Adder.budget (a : Adder) : ℕ :=
  match a.pc with
  | .signal => 16
  | .lock | .woken => 12
  | .whileFull => 11
  | .ifShutdown => 10
  | .unlockShutdown => 9
  | .ifArgs => 8
  | .freeArgs => 7
  | .nullArgs => 6
  | .storeArgs => 5
  | .storeFunction => 4
  | .moveRear => 3
  | .incSize => 2
  | .unlock | .wait => 1
  | .returned | .blocked => 0

/-- The statements a worker has left until it is blocked or takes a task; the broadcast of line
188 also pays for the `calls` calls it may wake. -/
def Worker.budget (calls : ℕ) (w : Worker) : ℕ :=
  match w.pc with
  | .broadcast => 18 + 12 * calls
  | .unlock => 17
  | .lockCounter => 16
  | .incBusy => 15
  | .unlockCounter | .woken => 14
  | .call | .ifWaitExit => 13
  | .running | .decWaitExit => 12
  | .lock | .ifAlive => 11
  | .whileEmpty | .decAlive => 10
  | .ifShutdown | .exitRetire => 9
  | .takeFunction => 8
  | .takeArgs => 7
  | .moveFront => 6
  | .decSize => 5
  | .wait | .exitShutdown => 1
  | .blocked | .exited => 0

/-- The statements the manager has left until it unlocks; line 225 also pays for the worker it
creates. -/
def Adjust.budget (slots : ℕ) (m : Adjust) : ℕ :=
  match m.pc with
  | .forSlot => 14 * (slots - m.i) + 2
  | .ifSlot => 14 * (slots - m.i) + 1
  | .create => 14 * (slots - m.i)
  | .readSize => 3
  | .readAlive | .readBusy | .setWaitExit => 2
  | .unlockSnapshot | .unlockCounter | .unlockRetire | .unlockGrow => 1
  | .whileShutdown | .lockSnapshot | .ifBacklog | .lockGrow | .lockCounter | .ifIdle | .lockRetire
  | .signal | .sleep | .returned => 0

/-- What a queued task is worth, in a pool with `calls` calls. -/
def fare (calls : ℕ) : ℕ := 15 + 12 * calls

/-- The calls that have not been counted in. -/
def State.pending (s : State) : ℕ := s.adders.countP fun a => !a.hasPassed

/-- The tasks accepted and not yet taken. -/
def State.backlog (s : State) : ℕ := s.accepted.length - s.taken.length

/-- The statements left in the pool until it has drained, at most. -/
def State.budget (calls : ℕ) (s : State) : ℕ :=
  fare calls * (2 * s.pending + s.backlog) + (s.adders.map Adder.budget).sum +
    (s.workers.map (Worker.budget calls)).sum + s.adjust.budget s.pool.pthreadMaxNum

/-! ## Every statement spends from it -/

theorem threadpoolAdd_budget {me : Thread} {p p' : Pool} {a a' : Adder} {e : Effect}
    (h : threadpoolAdd me p a = some (p', a', e)) (hrun : p.shutdown = false) :
    a'.budget + (if e = .signalNotEmpty then 14 else 0) + 1 ≤ a.budget + 15 * e.accepts.length ∧
      (if a.hasPassed then 0 else 1) = (if a'.hasPassed then 0 else 1) + e.accepts.length := by
  obtain ⟨pc, f, x, released, unlocks⟩ := a
  cases pc <;> simp only [threadpoolAdd] at h
  all_goals try split at h
  all_goals cases h
  all_goals simp_all [Adder.budget, Adder.hasPassed, Effect.accepts]

theorem threadpoolThread_budget (calls : ℕ) {me : Thread} {n : ℕ} {p p' : Pool} {w w' : Worker}
    {e : Effect} (h : threadpoolThread me n p w = some (p', w', e)) (hrun : p.shutdown = false) :
    w'.budget calls + (if e = .broadcastNotFull then 12 * calls else 0) + 1 ≤
      w.budget calls + (14 + 12 * calls) * e.takes.length := by
  obtain ⟨pc, task, number⟩ := w
  cases pc <;> simp only [threadpoolThread] at h
  all_goals try split at h
  all_goals cases h
  all_goals simp_all [Worker.budget, Effect.takes]
  all_goals omega

theorem adjustThread_budget {alive : Bool} {tid : ℕ} {p p' : Pool} {m m' : Adjust} {e : Effect}
    (h : adjustThread alive tid p m = some (p', m', e))
    (hin : m.holds = true ∨ (Local.manage m).counts = true)
    (hscan : m.pc = .ifSlot ∨ m.pc = .create → m.i < p.pthreadMaxNum) :
    m'.budget p'.pthreadMaxNum + (if e = .create then 11 else 0) + 1 ≤
      m.budget p.pthreadMaxNum ∧ e ≠ .signalNotEmpty := by
  obtain ⟨pc, i, qs, al, ad, bu⟩ := m
  cases pc <;> simp only [adjustThread] at h
  all_goals try split at h
  all_goals cases h
  all_goals simp_all [Adjust.budget, Adjust.holds, Local.counts]
  all_goals omega

/-- A signal raises the budget of the workers by that of a worker it wakes. -/
theorem WorkersAfter.budget_le (calls : ℕ) {ws ws' : List Worker} {e : Effect}
    (h : WorkersAfter ws e ws') (hb : e ≠ .broadcastNotEmpty) :
    (ws'.map (Worker.budget calls)).sum ≤ (ws.map (Worker.budget calls)).sum +
      (if e = .signalNotEmpty then 14 else 0) + if e = .create then 11 else 0 := by
  cases h with
  | @woken i w hw hblk =>
    have hset := sum_map_set_add (f := Worker.budget calls) (b := w.wake) hw
    have hpc : w.pc = .blocked := by simpa [Worker.isBlocked] using hblk
    have hwoken : w.wake.budget calls = 14 := by simp [Worker.wake, hpc, Worker.budget]
    rw [if_pos rfl]
    omega
  | nobody => simp
  | all => exact absurd rfl hb
  | created => simp [Worker.fresh, Worker.budget]
  | same => omega

/-- A broadcast raises the budget of the calls by that of the calls it wakes. -/
theorem sum_budget_wake_le (as : List Adder) :
    ((as.map Adder.wake).map Adder.budget).sum ≤ (as.map Adder.budget).sum + 12 * as.length := by
  induction as with
  | nil => simp
  | cons a as ih =>
    have hone : a.wake.budget ≤ a.budget + 12 := by
      by_cases hpc : a.pc = .blocked
      · simp [Adder.wake, hpc, Adder.budget]
      · rw [Adder.wake_eq_self hpc]
        omega
    simp only [List.map_cons, List.sum_cons, List.length_cons]
    omega

/-! ## A step spends from the budget -/

/-- The states of a running pool with `calls` calls. -/
structure Working (c : Config) (m : Memory) (calls : ℕ) (s : State) : Prop where
  reachable : (threadpool c m).Reachable s
  running : s.pool.shutdown = false
  calls : s.adders.length = calls

section Working

variable {c : Config} {m : Memory} {calls : ℕ}

theorem Working.after_step {s s' : State} {l : Label} (hs : Working c m calls s)
    (h : step s l = some s') (hin : isInternal ⟨s, l, s'⟩ = true) : Working c m calls s' := by
  obtain ⟨g, hrun⟩ := hs.reachable
  refine ⟨⟨_, hrun.step h⟩, ?_, ?_⟩
  · cases stepped_of_step h with
    | call | destroy | wakeAdd | wakeWork => cases hin
    | add _ hadd happ =>
      rw [(applied_of_apply happ).pool, State.setAdder, threadpoolAdd_frame hadd]
      exact hs.running
    | work _ hwork happ =>
      rw [(applied_of_apply happ).pool, State.setWorker, threadpoolThread_frame hwork]
      exact hs.running
    | adjust hadj happ =>
      rw [(applied_of_apply happ).pool, adjustThread_frame hadj]
      exact hs.running
  · rw [← hs.calls]
    cases stepped_of_step h with
    | call | destroy | wakeAdd | wakeWork => cases hin
    | add _ _ happ | work _ _ happ | adjust _ happ =>
      rw [(applied_of_apply happ).adders]
      split <;> simp [State.setAdder, State.setWorker]

theorem Working.queueInv {s : State} (hs : Working c m calls s) (hpos : 1 ≤ c.queueMaxSize) :
    QueueInv c m s := by
  obtain ⟨g, hrun⟩ := hs.reachable
  exact queueInv_of_run hpos hrun (noEarlyUnlock_of_running hrun hs.running)

theorem Working.taken_le {s : State} (hs : Working c m calls s) (hpos : 1 ≤ c.queueMaxSize) :
    s.taken.length ≤ s.accepted.length := by
  obtain ⟨r, a, b, hcoupled⟩ := (hs.queueInv hpos).coupled
  have hle := hcoupled.taken_le
  exact (Nat.le_add_right _ _).trans hle

/-- A worker that is about to count a task out has one to count out. -/
theorem Working.taken_lt {s : State} (hs : Working c m calls s) (hpos : 1 ≤ c.queueMaxSize)
    {i : ℕ} {w : Worker} (hw : s.workers[i]? = some w) (hpc : w.pc = .decSize) :
    s.taken.length < s.accepted.length := by
  have hin := (hs.queueInv hpos).work hw (by simp [Worker.holds, hpc])
  simp only [Worker.queueAssertion, hpc] at hin
  exact hin.1.taken_le

/-- The scan of the growth loop is inside the table when line 224 or 225 looks at a slot. -/
theorem scan_of_run {h : History} {s : State} (hrun : (threadpool c m).Run h s) :
    s.adjust.pc = .ifSlot ∨ s.adjust.pc = .create → s.adjust.i < s.pool.pthreadMaxNum := by
  refine hrun.invariant (I := fun s => s.adjust.pc = .ifSlot ∨ s.adjust.pc = .create →
    s.adjust.i < s.pool.pthreadMaxNum) ?_ ?_
  · rintro s rfl
    simp [created]
  · intro s l s' _ hstep hinv hpc
    have hstepped := stepped_of_run hstep
    have hmax : s'.pool.pthreadMaxNum = s.pool.pthreadMaxNum :=
      congrArg Config.threadMaxNum hstepped.config
    rw [hmax]
    cases hstepped with
    | call | wakeAdd | wakeWork => exact hinv hpc
    | add _ _ happ | work _ _ happ | destroy _ happ =>
      rw [(applied_of_apply happ).adjust] at hpc ⊢
      exact hinv hpc
    | adjust hadj happ =>
      rw [(applied_of_apply happ).adjust] at hpc ⊢
      by_cases hcreate : s.adjust.pc = .create
      · simp only [adjustThread, hcreate, Option.some.injEq, Prod.mk.injEq] at hadj
        obtain ⟨-, rfl, -⟩ := hadj
        simp at hpc
      · obtain ⟨hi, hslot | hlt⟩ := adjustThread_scan hadj hcreate hpc
        · rw [hi]
          exact hinv (.inl hslot)
        · rw [hi]
          exact hlt

/-- A statement of a call spends from the budget. -/
theorem Working.budget_add {s s' : State} {i choice : ℕ} (hs : Working c m calls s)
    (hpos : 1 ≤ c.queueMaxSize) (h : Stepped s (.add i choice) s') :
    s'.budget calls < s.budget calls := by
  have htaken := hs.taken_le hpos
  cases h with
  | @add _ _ a a' p e _ ha hadd happ =>
    have hap := applied_of_apply happ
    obtain ⟨-, hbroadcast, hcreate, -, htakes⟩ := threadpoolAdd_effect hadd
    obtain ⟨hbudget, hpassed⟩ := threadpoolAdd_budget hadd hs.running
    have hadders : s'.adders = s.adders.set i a' := hap.adders_of_add hadd
    have hcalls := sum_map_set_add (f := Adder.budget) (b := a') ha
    have hpending := countP_set_add (p := fun a => !a.hasPassed) (b := a') ha
    have hworkers := hap.workers.budget_le calls hbroadcast
    rw [if_neg hcreate] at hworkers
    have hmax : s'.pool.pthreadMaxNum = s.pool.pthreadMaxNum :=
      congrArg Config.threadMaxNum (Stepped.add ha hadd happ).config
    have hacc : s'.accepted.length = s.accepted.length + e.accepts.length := by
      rw [hap.accepted, List.length_append]
      rfl
    have htak : s'.taken.length = s.taken.length := by
      rw [hap.taken, htakes, List.append_nil]
      rfl
    have hone : e.accepts.length = 0 ∨ e.accepts.length = 1 := by cases e <;> simp [Effect.accepts]
    simp only [State.setAdder] at hworkers
    simp only [State.budget, State.pending, State.backlog, hadders, hap.adjust, hmax, hacc, htak,
      State.setAdder]
    simp only [Bool.not_eq_true', Bool.eq_false_iff, ite_not, ne_eq] at hpending
    rcases hone with hzero | hone
    · rw [hzero] at hpassed hbudget ⊢
      have hsame : (s.adders.set i a').countP (fun a => !a.hasPassed) =
          s.adders.countP fun a => !a.hasPassed := by omega
      rw [hsame, Nat.add_zero]
      omega
    · rw [hone] at hpassed hbudget ⊢
      -- One call fewer is pending, one task more is queued.
      have hless : s.adders.countP (fun a => !a.hasPassed) =
          (s.adders.set i a').countP (fun a => !a.hasPassed) + 1 := by omega
      have hback : s.accepted.length + 1 - s.taken.length =
          s.accepted.length - s.taken.length + 1 := by omega
      rw [hless, hback]
      have hfare : fare calls * (2 * ((s.adders.set i a').countP (fun a => !a.hasPassed) + 1) +
          (s.accepted.length - s.taken.length)) =
          fare calls * (2 * (s.adders.set i a').countP (fun a => !a.hasPassed) +
            (s.accepted.length - s.taken.length + 1)) + fare calls := by ring
      rw [hfare]
      have : 15 ≤ fare calls := by simp [fare]
      omega

/-- A statement of a worker spends from the budget. -/
theorem Working.budget_work {s s' : State} {i : ℕ} (hs : Working c m calls s)
    (hpos : 1 ≤ c.queueMaxSize) (h : Stepped s (.work i) s') :
    s'.budget calls < s.budget calls := by
  cases h with
  | @work _ w w' p e _ hw hwork happ =>
    have hap := applied_of_apply happ
    obtain ⟨-, -, -, -, haccepts, -⟩ := threadpoolThread_effect hwork
    have hbudget := threadpoolThread_budget calls hwork hs.running
    have hworkers : s'.workers = s.workers.set i w' := hap.workers_of_work hwork
    have hsum := sum_map_set_add (f := Worker.budget calls) (b := w') hw
    have hmax : s'.pool.pthreadMaxNum = s.pool.pthreadMaxNum :=
      congrArg Config.threadMaxNum (Stepped.work hw hwork happ).config
    have hacc : s'.accepted = s.accepted := by
      rw [hap.accepted, haccepts, List.append_nil]
      rfl
    have htak : s'.taken.length = s.taken.length + e.takes.length := by
      rw [hap.taken, List.length_append]
      rfl
    have hadders : (s'.adders.map Adder.budget).sum ≤ (s.adders.map Adder.budget).sum +
          (if e = .broadcastNotFull then 12 * calls else 0) ∧ s'.pending = s.pending := by
      rw [State.pending, hap.adders]
      split
      · refine ⟨hs.calls ▸ sum_budget_wake_le _, ?_⟩
        rw [countP_map_of_eq fun a => by simp]
        rfl
      · exact ⟨le_rfl, rfl⟩
    obtain ⟨hcalls, hpending⟩ := hadders
    simp only [State.budget, State.backlog, hpending, hworkers, hap.adjust, hmax, hacc, htak,
      State.setWorker]
    rcases Nat.eq_zero_or_pos e.takes.length with hzero | hone
    · rw [hzero] at hbudget ⊢
      rw [Nat.add_zero]
      omega
    · have hone : e.takes.length = 1 := by
        have := e.takes_length_le
        omega
      rw [hone] at hbudget ⊢
      -- One task fewer is queued.
      have hlt : s.taken.length < s.accepted.length := by
        cases e <;> simp [Effect.takes] at hone
        exact hs.taken_lt hpos hw (threadpoolThread_take hwork).1
      have hback : s.accepted.length - s.taken.length =
          s.accepted.length - (s.taken.length + 1) + 1 := by omega
      rw [hback]
      have hfare : fare calls * (2 * s.pending +
          (s.accepted.length - (s.taken.length + 1) + 1)) =
          fare calls * (2 * s.pending + (s.accepted.length - (s.taken.length + 1))) +
            fare calls := by ring
      rw [hfare]
      unfold fare
      omega

/-- A statement of the manager inside a critical section spends from the budget. -/
theorem Working.budget_adjust {s s' : State} {answer : Bool} {choice : ℕ}
    (hs : Working c m calls s) (hin : s.adjust.holds = true ∨ (Local.manage s.adjust).counts = true)
    (h : Stepped s (.adjust answer choice) s') : s'.budget calls < s.budget calls := by
  obtain ⟨g, hrun⟩ := hs.reachable
  cases h with
  | @adjust _ _ n p e _ hadj happ =>
    have hap := applied_of_apply happ
    obtain ⟨hbudget, hsignal⟩ := adjustThread_budget hadj hin (scan_of_run hrun)
    have hquiet : e ≠ .broadcastNotEmpty ∧ e ≠ .broadcastNotFull ∧ e.accepts = [] ∧
        e.takes = [] := by
      rcases adjustThread_effect hadj with rfl | rfl | rfl <;>
        simp [Effect.accepts, Effect.takes]
    obtain ⟨hbroadcast, hfull, haccepts, htakes⟩ := hquiet
    have hworkers := hap.workers.budget_le calls hbroadcast
    rw [if_neg hsignal] at hworkers
    have hacc : s'.accepted = s.accepted := by rw [hap.accepted, haccepts, List.append_nil]
    have htak : s'.taken = s.taken := by rw [hap.taken, htakes, List.append_nil]
    have hadders : s'.adders = s.adders := by rw [hap.adders, if_neg hfull]
    simp only [State.budget, State.pending, State.backlog, hacc, htak, hadders, hap.adjust,
      hap.pool]
    simp only at hworkers
    omega

theorem Working.budget_lt {s s' : State} {l : Label} (hs : Working c m calls s)
    (hpos : 1 ≤ c.queueMaxSize) (h : step s l = some s')
    (hin : isInternal ⟨s, l, s'⟩ = true) : s'.budget calls < s.budget calls := by
  cases l with
  | call | destroy | wakeAdd | wakeWork => cases hin
  | add => exact hs.budget_add hpos (stepped_of_step h)
  | work => exact hs.budget_work hpos (stepped_of_step h)
  | adjust => exact hs.budget_adjust (by simpa [isInternal] using hin) (stepped_of_step h)

/-! ## Where no step is left -/

/-- The work is done: every call has returned, what was accepted has been taken, and the workers
sleep. -/
structure Drained (s : State) : Prop where
  calls : ∀ a ∈ s.adders, a.pc = .returned
  tasks : s.taken = s.accepted
  workers : ∀ w ∈ s.workers, w.pc = .blocked

/-- Inside a critical section the manager can always go on. -/
theorem exists_adjustThread_of_inside (alive : Bool) (tid : ℕ) (p : Pool) {n : Adjust}
    (hin : n.holds = true ∨ (Local.manage n).counts = true) :
    ∃ p' n' e, adjustThread alive tid p n = some (p', n', e) := by
  obtain ⟨pc, i, qs, al, ad, bu⟩ := n
  cases pc <;> simp only [adjustThread]
  all_goals first
    | exact ⟨_, _, _, rfl⟩
    | (split <;> exact ⟨_, _, _, rfl⟩)
    | simp [Adjust.holds, Local.counts] at hin

variable {s : State}

/-- Where no step is left nobody is inside a critical section. -/
theorem not_inside_of_stuck (hstuck : (threadpool c m).Stuck (isInternal · = true) s) {t : Thread}
    {x : Local} (hx : s.thread t = some x) : ¬ (x.holds = true ∨ x.counts = true) := by
  intro hin
  by_cases ht : t = .adjust
  · subst ht
    obtain rfl := Option.some.inj hx
    obtain ⟨p, n, e, hadj⟩ := exists_adjustThread_of_inside
      (pthreadIsAlive s (s.pool.threads.getD s.adjust.i 0) false) (tidOf s.workers.length) s.pool
      hin
    obtain ⟨choice, s', happ⟩ := exists_apply { s with pool := p, adjust := n } e
    refine hstuck (.adjust false choice) s' ?_ (Bool.or_eq_true_iff.mpr hin)
    show step s (.adjust false choice) = some s'
    simp only [step, hadj, happ]
  · obtain ⟨hb, hdone, hlock, hcounter⟩ := Local.ready_of_inside hin
    obtain ⟨p, y, e, hexe⟩ := exists_executes hx ht hb hdone (by simp [hlock]) (by simp [hcounter])
    obtain ⟨l, s', hstep, hl, -, -⟩ := hexe.exists_step hx ht
    refine hstuck l s' hstep ?_
    cases l <;> simp_all [Label.thread, isInternal]

/-- Where no step is left both mutexes are free. -/
theorem Working.mutexes_free (hs : Working c m calls s)
    (hstuck : (threadpool c m).Stuck (isInternal · = true) s) :
    s.pool.lock = none ∧ s.pool.threadCounter = none := by
  obtain ⟨g, hrun⟩ := hs.reachable
  constructor
  · by_contra hne
    obtain ⟨t, ht⟩ := Option.ne_none_iff_exists'.mp hne
    obtain ⟨x, hx, hh⟩ := lockAttended_of_run hrun t ht
    exact not_inside_of_stuck hstuck hx (.inl hh)
  · by_contra hne
    obtain ⟨t, ht⟩ := Option.ne_none_iff_exists'.mp hne
    obtain ⟨x, hx, hh⟩ := counterAttended_of_run hrun t ht
    exact not_inside_of_stuck hstuck hx (.inr hh)

/-- Where no step is left every call and every worker is blocked or done. -/
theorem Working.blocked_or_done (hs : Working c m calls s)
    (hstuck : (threadpool c m).Stuck (isInternal · = true) s) {t : Thread} {x : Local}
    (hx : s.thread t = some x) (ht : t ≠ .adjust) : x.isBlocked = true ∨ x.isDone = true := by
  by_contra hne
  simp only [not_or, Bool.not_eq_true] at hne
  obtain ⟨hlock, hcounter⟩ := hs.mutexes_free hstuck
  obtain ⟨p, y, e, hexe⟩ := exists_executes hx ht hne.1 hne.2 (fun _ => hlock) fun _ => hcounter
  obtain ⟨l, s', hstep, hl, -, -⟩ := hexe.exists_step hx ht
  refine hstuck l s' hstep ?_
  cases l <;> simp_all [Label.thread, isInternal]

/-- Where no step is left the pool has drained. -/
theorem Working.drained (hs : Working c m calls s) (hmin : 1 ≤ c.threadMinNum)
    (hpos : 1 ≤ c.queueMaxSize) (hstuck : (threadpool c m).Stuck (isInternal · = true) s) :
    Drained s := by
  obtain ⟨g, hrun⟩ := hs.reachable
  have hfree := (hs.mutexes_free hstuck).1
  have hworkers : ∀ w ∈ s.workers, w.pc = .blocked := by
    intro w hw
    obtain ⟨i, hi⟩ := List.getElem?_of_mem hw
    rcases hs.blocked_or_done hstuck (t := .worker i) (x := .work w)
      (by simp [State.thread, hi]) (by simp) with hb | hdone
    · simpa [Local.isBlocked, Worker.isBlocked] using hb
    · have hlive := isLive_of_running hrun hs.running hi
      simp only [Local.isDone, decide_eq_true_eq] at hdone
      simp [Worker.isLive, hdone] at hlive
  -- Some worker sleeps and none is awake, so nothing is queued.
  obtain ⟨hserved, hfull⟩ := (wakeInv_of_run hrun hs.running).free hfree
  have hsome : 0 < s.workers.countP Worker.isBlocked := by
    have hlen := workers_length_of_run hrun
    have hlt : 0 < s.workers.length := by omega
    exact List.countP_pos_iff.mpr ⟨_, List.getElem_mem hlt, by
      simp [Worker.isBlocked, hworkers _ (List.getElem_mem hlt)]⟩
  have hnone : s.workers.countP Worker.isIdle = 0 :=
    List.countP_eq_zero.mpr fun w hw => by simp [Worker.isIdle, hworkers w hw]
  have hempty : s.pool.queueSize ≤ (s.workers.countP Worker.isIdle : ℕ) + (0 : ℕ) := hserved hsome
  have hcoupled : Coupled (m.ring c) 0 0 0 s.queue := (hs.queueInv hpos).free hfree
  have hsize : s.pool.queueSize = (s.accepted.length : ℤ) - s.taken.length := hcoupled.size
  have hle : s.taken.length ≤ s.accepted.length := hcoupled.taken_le
  refine ⟨fun a ha => ?_, ?_, hworkers⟩
  · obtain ⟨i, hi⟩ := List.getElem?_of_mem ha
    rcases hs.blocked_or_done hstuck (t := .adder i) (x := .add a)
      (by simp [State.thread, hi]) (by simp) with hb | hdone
    · -- A call that sleeps finds the queue full.
      have hstalled : s.pool.queueSize = s.pool.queueMaxSize :=
        hfull (List.countP_pos_iff.mpr ⟨a, ha, hb⟩)
      have hcap : s.pool.queueMaxSize = c.queueMaxSize :=
        congrArg Config.queueMaxSize (config_of_run hrun)
      omega
    · simpa [Local.isDone] using hdone
  · exact hcoupled.taken_prefix.eq_of_length (by show s.taken.length = s.accepted.length; omega)

/-- In a pool that has drained every task of every call has been called and has returned. -/
theorem Drained.executed {h : History} (hd : Drained s) (hrun : (threadpool c m).Run h s) :
    s.accepted.Perm (s.adders.map Adder.task) ∧
      ∀ k < s.accepted.length, startCount h k = 1 ∧ returnCount h k = 1 := by
  constructor
  · refine List.perm_iff_count.mpr fun t => ?_
    rw [count_accepted hrun, List.count_eq_countP, List.countP_map]
    refine List.countP_congr fun a ha => ?_
    simp [Adder.hasPassed, hd.calls a ha]
  · intro k hk
    have hcarry : s.carriers k = 0 := List.countP_eq_zero.mpr fun w hw => by
      simp [Worker.carries, Worker.isCarrying, hd.workers w hw]
    have hrunner : s.runners k = 0 := List.countP_eq_zero.mpr fun w hw => by
      simp [Worker.runs, hd.workers w hw]
    have hstarted := started_ledger hrun k
    have hreturned := returned_ledger hrun k
    rw [hd.tasks, if_pos hk] at hstarted
    omega

end Working

/-- **A running pool drains.**  From every state of a running pool with at least one worker the
statements of the calls, of the workers and of the manager inside its critical sections come
to an end, in whatever order they are taken; and where none is left every call has returned
and its task has been called once and has returned, and every worker sleeps. -/
theorem pool_drains (c : Config) (m : Memory) (hmin : 1 ≤ c.threadMinNum)
    (hpos : 1 ≤ c.queueMaxSize) (h : History) (s : State) (hrun : (threadpool c m).Run h s)
    (hshut : s.pool.shutdown = false) :
    (threadpool c m).Completes (isInternal · = true)
      (fun h' s' => s'.adders.length = s.adders.length ∧ Drained s' ∧
        s'.accepted.Perm (s'.adders.map Adder.task) ∧
        ∀ k < s'.accepted.length, startCount (h ++ h') k = 1 ∧ returnCount (h ++ h') k = 1) s := by
  refine System.completes_of_rank (State.budget s.adders.length)
    (I := Working c m s.adders.length) (fun s l s' hstep hin hs => hs.after_step hstep hin)
    (fun s l s' hstep hin hs => hs.budget_lt hpos hstep hin) (fun h' s' hcont hs hstuck => ?_)
    ⟨⟨h, hrun⟩, hshut, rfl⟩
  have hdrained := hs.drained hmin hpos hstuck
  exact ⟨hs.calls, hdrained, hdrained.executed (hcont.run hrun)⟩

/-- One worker, room for one task and three calls: all of them return. -/
theorem pool_drains_three_calls :
    ∃ h s, (threadpool ⟨1, 1, 1⟩ .cleared).Run h s ∧ s.adders.length = 3 ∧
      ∃ h' s', (threadpool ⟨1, 1, 1⟩ .cleared).Run (h ++ h') s' ∧ Drained s' ∧
        s'.accepted.length = 3 := by
  obtain ⟨h, s, hrun, hP⟩ := exists_run_of_schedule ⟨1, 1, 1⟩ .cleared
    [.call 1 1, .call 1 2, .call 1 3]
    (fun _ s => !s.pool.shutdown && decide (s.adders.length = 3)) (by decide +kernel)
  simp only [Bool.and_eq_true, Bool.not_eq_true', decide_eq_true_eq] at hP
  obtain ⟨hshut, hcalls⟩ := hP
  have hdrains := pool_drains _ _ (by decide) (by decide) h s hrun hshut
  obtain ⟨h', s', hcont, hstuck⟩ := hdrains.possible
  obtain ⟨hlen, hdrained, hperm, -⟩ := hdrains.maximal h' s' hcont hstuck
  refine ⟨h, s, hrun, hcalls, h', s', hcont.run hrun, hdrained, ?_⟩
  rw [hperm.length_eq, List.length_map, hlen, hcalls]

end LinuxExercise.ThreadPool
