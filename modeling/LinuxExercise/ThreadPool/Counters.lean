import LinuxExercise.ThreadPool.Workers

/-!
# The two thread counters

`pthread_alive_num` should be the number of worker threads and `pthread_busy_num` the number
of those that execute a task.  Both drift.  The growth loop increments a local variable that
shadows the first counter, so every thread it creates is missing from it; nothing lowers the
second counter, so every task that returns stays in it.

The two ledgers say by how much.  `pthread_alive_num` is short by the number of executions of
line 225 (`live_eq_alive_add_growth`), `pthread_busy_num` is long by the number of task
functions that have returned (`busy_eq_busyWorkers_add_returns`).
-/

namespace LinuxExercise.ThreadPool

/-! ## `pthread_alive_num` -/

/-- The number of workers that have been created and have not exited. -/
def State.liveWorkers (s : State) : ℕ := s.workers.countP Worker.isLive

/-- `pthread_alive_num`, and what `threadpool_get_all_pthread_num` returns, is the number of
workers. -/
def AliveExact (s : State) : Prop :=
  s.pool.pthreadAliveNum = s.liveWorkers ∧
    threadpoolGetAllPthreadNum (some s.pool) = s.liveWorkers

/-- The ledger of `pthread_alive_num` up to the moment `shutdown` is set. -/
theorem live_eq_alive_add_growth {c : Config} {m : Memory} {h : History} {s : State}
    (hrun : (threadpool c m).Run h s) (hshut : s.pool.shutdown = false) :
    (s.liveWorkers : ℤ) = s.pool.pthreadAliveNum + h.countP isGrowth := by
  have hall : s.liveWorkers = s.workers.length := by
    refine List.countP_eq_length.mpr fun w hw => ?_
    obtain ⟨i, hi⟩ := List.getElem?_of_mem hw
    exact isLive_of_running hrun hshut hi
  have halive : s.pool.pthreadAliveNum = c.threadMinNum := by
    rw [(noRetire_of_run hrun).alive]
    exact congrArg (fun c : Config => (c.threadMinNum : ℤ)) (config_of_run hrun)
  rw [hall, workers_length_of_run hrun, halive]
  push_cast
  rfl

/-- **When `pthread_alive_num` is right.**  While the pool is running it is the number of
workers if and only if the growth loop has not created one. -/
theorem alive_exact_iff_no_growth (c : Config) (m : Memory) (h : History) (s : State)
    (hrun : (threadpool c m).Run h s) (hshut : s.pool.shutdown = false) :
    AliveExact s ↔ ∀ e ∈ h, isGrowth e = false := by
  have hledger := live_eq_alive_add_growth hrun hshut
  have hzero : h.countP isGrowth = 0 ↔ ∀ e ∈ h, isGrowth e = false := by
    simp [List.countP_eq_zero]
  rw [← hzero, AliveExact, threadpoolGetAllPthreadNum]
  omega

/-- Five tasks pile up before the only worker has started, and the manager grows the pool to
its maximum of three. -/
def growthSchedule : List Label := backlogSchedule ++ List.replicate 17 (.adjust false 0)

/-- The counter is right after a tick of the manager that has nothing to do. -/
theorem alive_exact_after_idle_tick :
    ∃ h s, (threadpool ⟨1, 3, 5⟩ .cleared).Run h s ∧ s.adjust.pc = .sleep ∧ AliveExact s := by
  obtain ⟨h, s, hrun, hP⟩ := exists_run_of_schedule ⟨1, 3, 5⟩ .cleared
    (addSchedule 0 1 1 ++ List.replicate 10 (.adjust false 0))
    (fun h s => !s.pool.shutdown && decide (s.adjust.pc = .sleep) &&
      h.all fun e => !isGrowth e) (by decide +kernel)
  simp only [Bool.and_eq_true, Bool.not_eq_true', decide_eq_true_eq, List.all_eq_true] at hP
  obtain ⟨⟨hshut, hsleep⟩, hgrowth⟩ := hP
  exact ⟨h, s, hrun, hsleep, (alive_exact_iff_no_growth _ _ h s hrun hshut).2 hgrowth⟩

/-- After the growth the pool has three workers and `pthread_alive_num` is one. -/
theorem alive_not_exact :
    ¬ ∀ (c : Config) (m : Memory) (h : History) (s : State), 0 < c.threadMinNum →
      c.threadMinNum ≤ c.threadMaxNum → (threadpool c m).Run h s → s.pool.shutdown = false →
      s.pool.lock = none → AliveExact s := by
  intro hclaim
  obtain ⟨h, s, hrun, hP⟩ := exists_run_of_schedule ⟨1, 3, 5⟩ .cleared
    growthSchedule
    (fun _ s => !s.pool.shutdown && decide (s.pool.lock = none) &&
      decide (s.pool.pthreadAliveNum = 1) && decide (s.liveWorkers = 3)) (by decide +kernel)
  simp only [Bool.and_eq_true, Bool.not_eq_true', decide_eq_true_eq] at hP
  obtain ⟨⟨⟨hshut, hlock⟩, halive⟩, hlive⟩ := hP
  have hexact := (hclaim _ _ _ _ (by decide) (by decide) hrun hshut hlock).1
  rw [halive, hlive] at hexact
  cases hexact

/-! ## `pthread_busy_num` -/

/-- The worker is between the increment of line 197 and the return of its task function. -/
def Worker.isBusy (w : Worker) : Bool :=
  match w.pc with
  | .unlockCounter | .call | .running => true
  | _ => false

/-- The number of workers that are executing a task. -/
def State.busyWorkers (s : State) : ℕ := s.workers.countP Worker.isBusy

/-- The step is the return of a task function. -/
def isReturn (e : Event State Label) : Bool :=
  match e.label with
  | .work i => (e.pre.workers[i]?).any fun w => decide (w.pc = .running)
  | _ => false

/-- The largest `int`. -/
def intMax : ℤ := 2 ^ 31 - 1

/-- `pthread_busy_num` is the number of busy workers, with what should follow from that; the
product of line 239 is computed from the value read at line 235. -/
structure BusyExact (c : Config) (s : State) : Prop where
  exact : s.pool.pthreadBusyNum = s.busyWorkers
  getter : threadpoolGetBusyPthreadNum (some s.pool) = s.busyWorkers
  nonneg : 0 ≤ s.pool.pthreadBusyNum
  le_max : s.pool.pthreadBusyNum ≤ c.threadMaxNum
  idle : (∀ w ∈ s.workers, w.pc = .blocked ∨ w.pc = .woken) → s.pool.pthreadBusyNum = 0
  no_overflow : 2 * s.pool.pthreadBusyNum ≤ intMax
  no_overflow_read : s.adjust.pc = .ifIdle →
    -intMax ≤ s.adjust.pthreadBusyNum * 2 ∧ s.adjust.pthreadBusyNum * 2 ≤ intMax

@[simp] theorem Worker.wake_isBusy (w : Worker) : w.wake.isBusy = w.isBusy := by
  by_cases h : w.pc = .blocked
  · simp [Worker.wake, Worker.isBusy, h]
  · rw [Worker.wake_eq_self h]

/-- A statement of a worker changes `pthread_busy_num` as it changes its own being busy, except
that the return of the task function leaves it as it is. -/
theorem threadpoolThread_busy {me : Thread} {n : ℕ} {p p' : Pool} {w w' : Worker} {e : Effect}
    (h : threadpoolThread me n p w = some (p', w', e)) :
    p'.pthreadBusyNum + (if w.isBusy then 1 else 0) =
      p.pthreadBusyNum + (if w'.isBusy then 1 else 0) + if w.pc = .running then 1 else 0 := by
  obtain ⟨pc, task, number⟩ := w
  cases pc <;> simp only [threadpoolThread] at h
  all_goals try split at h
  all_goals cases h
  all_goals simp [Worker.isBusy]

/-- Nobody but a worker changes `pthread_busy_num`. -/
theorem Stepped.busy {s s' : State} {l : Label} (h : Stepped s l s') (hl : ∀ i, l ≠ .work i) :
    s'.pool.pthreadBusyNum = s.pool.pthreadBusyNum := by
  cases h with
  | call | wakeAdd | wakeWork => rfl
  | add _ hadd happ => rw [(applied_of_apply happ).pool, State.setAdder, threadpoolAdd_frame hadd]
  | work => exact absurd rfl (hl _)
  | adjust hadj happ => rw [(applied_of_apply happ).pool, adjustThread_frame hadj]
  | destroy hdes happ => rw [(applied_of_apply happ).pool, (threadpoolDestroy_frame hdes).1]

/-- The ledger of `pthread_busy_num`. -/
theorem busy_eq_busyWorkers_add_returns {c : Config} {m : Memory} {h : History} {s : State}
    (hrun : (threadpool c m).Run h s) :
    s.pool.pthreadBusyNum = s.busyWorkers + h.countP isReturn := by
  refine hrun.ledger
    (J := fun h s => s.pool.pthreadBusyNum = s.busyWorkers + h.countP isReturn) ?_ ?_
  · rintro s rfl
    simp [created, threadpoolCreate, State.busyWorkers, Worker.fresh, Worker.isBusy,
      List.countP_replicate]
  · intro h s l s' _ hstep ih
    have hstepped := stepped_of_run hstep
    rw [List.countP_append, List.countP_singleton]
    rcases hstepped.countP (q := Worker.isBusy) Worker.wake_isBusy with
      ⟨i, w, v, e, rfl, hw, hwork, hcount⟩ | ⟨hl, hcount⟩
    · have hbusy := threadpoolThread_busy hwork
      have hret : isReturn ⟨s, .work i, s'⟩ = decide (w.pc = .running) := by
        simp [isReturn, hw]
      rw [hret]
      simp only [State.busyWorkers] at ih ⊢
      simp only [decide_eq_true_eq]
      split at hbusy <;> split at hbusy <;> split at hbusy <;> simp_all <;> omega
    · have hret : isReturn ⟨s, l, s'⟩ = false := by
        cases l <;> first | rfl | exact absurd rfl (hl _)
      have hfresh : Worker.fresh.isBusy = false := rfl
      rw [hstepped.busy hl, ih, hret]
      simp [State.busyWorkers, hcount, hfresh]

/-- A statement of a worker never lowers `pthread_busy_num`. -/
theorem threadpoolThread_busy_le {me : Thread} {n : ℕ} {p p' : Pool} {w w' : Worker} {e : Effect}
    (h : threadpoolThread me n p w = some (p', w', e)) :
    p.pthreadBusyNum ≤ p'.pthreadBusyNum := by
  obtain ⟨pc, task, number⟩ := w
  cases pc <;> simp only [threadpoolThread] at h
  all_goals try split at h
  all_goals cases h
  all_goals simp

theorem adjustThread_busy {alive : Bool} {tid : ℕ} {p p' : Pool} {m m' : Adjust} {e : Effect}
    (h : adjustThread alive tid p m = some (p', m', e)) :
    m'.pthreadBusyNum = m.pthreadBusyNum ∨ m'.pthreadBusyNum = p.pthreadBusyNum := by
  obtain ⟨pc, i, qs, al, ad, bu⟩ := m
  cases pc <;> simp only [adjustThread] at h
  all_goals try split at h
  all_goals cases h
  all_goals simp

/-- What the manager read at line 235 is not more than what it would read now. -/
theorem adjust_busy_le {c : Config} {m : Memory} {h : History} {s : State}
    (hrun : (threadpool c m).Run h s) :
    0 ≤ s.adjust.pthreadBusyNum ∧ s.adjust.pthreadBusyNum ≤ s.pool.pthreadBusyNum := by
  refine hrun.invariant
    (I := fun s => 0 ≤ s.adjust.pthreadBusyNum ∧ s.adjust.pthreadBusyNum ≤ s.pool.pthreadBusyNum)
    ?_ ?_
  · rintro s rfl
    simp [created, threadpoolCreate]
  · intro s l s' _ hstep hbound
    obtain ⟨hpos, hle⟩ := hbound
    have hstepped := stepped_of_run hstep
    have hnonneg : 0 ≤ s.pool.pthreadBusyNum := hpos.trans hle
    cases hstepped with
    | call | wakeAdd | wakeWork => exact ⟨hpos, hle⟩
    | add _ hadd happ =>
      have hap := applied_of_apply happ
      rw [hap.adjust, hap.pool, State.setAdder, threadpoolAdd_frame hadd]
      exact ⟨hpos, hle⟩
    | work _ hwork happ =>
      have hap := applied_of_apply happ
      rw [hap.adjust, hap.pool]
      exact ⟨hpos, hle.trans (threadpoolThread_busy_le hwork)⟩
    | adjust hadj happ =>
      have hap := applied_of_apply happ
      rw [hap.adjust, hap.pool, adjustThread_frame hadj]
      rcases adjustThread_busy hadj with hb | hb
      · exact ⟨hb ▸ hpos, hb ▸ hle⟩
      · exact ⟨hb ▸ hnonneg, hb.le⟩
    | destroy hdes happ =>
      have hap := applied_of_apply happ
      rw [hap.adjust, hap.pool, (threadpoolDestroy_frame hdes).1]
      exact ⟨hpos, hle⟩

theorem busyWorkers_le_live (s : State) : s.busyWorkers ≤ s.liveWorkers := by
  refine List.countP_mono_left fun w _ hbusy => ?_
  obtain ⟨pc, task, number⟩ := w
  cases pc <;> first | rfl | cases hbusy

/-- **When `pthread_busy_num` is right.**  It is right if and only if no task function has
returned and the workers executing one are few enough for `int` and for `pthread_max_num`; the
last condition is met by every pool whose minimum is not above its maximum. -/
theorem busy_exact_iff_no_return (c : Config) (m : Memory) (h : History) (s : State)
    (hrun : (threadpool c m).Run h s) :
    (BusyExact c s ↔ (∀ e ∈ h, isReturn e = false) ∧ 2 * (s.busyWorkers : ℤ) ≤ intMax ∧
      s.busyWorkers ≤ c.threadMaxNum) ∧
    (c.threadMinNum ≤ c.threadMaxNum → s.busyWorkers ≤ c.threadMaxNum) := by
  have hledger := busy_eq_busyWorkers_add_returns hrun
  have hzero : h.countP isReturn = 0 ↔ ∀ e ∈ h, isReturn e = false := by
    simp [List.countP_eq_zero]
  refine ⟨?_, fun hle => (busyWorkers_le_live s).trans (live_le_max hle hrun)⟩
  rw [← hzero]
  constructor
  · intro hexact
    have h₁ := hexact.exact
    have h₂ := hexact.no_overflow
    have h₃ := hexact.le_max
    exact ⟨by omega, by omega, by omega⟩
  · rintro ⟨hret, hint, hmax⟩
    have hexact : s.pool.pthreadBusyNum = s.busyWorkers := by omega
    obtain ⟨hpos, hle⟩ := adjust_busy_le hrun
    refine ⟨hexact, hexact, by omega, by omega, fun hidle => ?_, by omega, fun _ => ?_⟩
    · have hnone : s.busyWorkers = 0 := by
        refine List.countP_eq_zero.mpr fun w hw => ?_
        rcases hidle w hw with hpc | hpc <;> simp [Worker.isBusy, hpc]
      omega
    · unfold intMax at hint ⊢
      omega

/-- The counter is right while the first task is being executed. -/
theorem busy_exact_during_first_task :
    ∃ h s, (threadpool ⟨1, 1, 1⟩ .cleared).Run h s ∧ s.busyWorkers = 1 ∧
      BusyExact ⟨1, 1, 1⟩ s := by
  obtain ⟨h, s, hrun, hP⟩ := exists_run_of_schedule ⟨1, 1, 1⟩ .cleared
    (addSchedule 0 1 1 ++ taskSchedule 0)
    (fun h s => decide (s.busyWorkers = 1) && h.all fun e => !isReturn e) (by decide +kernel)
  simp only [Bool.and_eq_true, Bool.not_eq_true', decide_eq_true_eq, List.all_eq_true] at hP
  obtain ⟨hbusy, hreturn⟩ := hP
  refine ⟨h, s, hrun, hbusy, (busy_exact_iff_no_return _ _ h s hrun).1.2 ⟨hreturn, ?_, ?_⟩⟩
  · rw [hbusy]
    decide
  · rw [hbusy]

/-- The only worker executes one task, returns and blocks; `pthread_busy_num` is one. -/
theorem busy_not_exact :
    ¬ ∀ (c : Config) (m : Memory) (h : History) (s : State), 0 < c.threadMinNum →
      c.threadMinNum ≤ c.threadMaxNum → 1 ≤ c.queueMaxSize → (threadpool c m).Run h s →
      s.pool.threadCounter = none → BusyExact c s := by
  intro hclaim
  obtain ⟨h, s, hrun, hP⟩ := exists_run_of_schedule ⟨1, 1, 1⟩ .cleared
    (addSchedule 0 1 1 ++ taskSchedule 0 ++ List.replicate 4 (.work 0))
    (fun _ s => decide (s.pool.threadCounter = none) &&
      decide (s.pool.pthreadBusyNum = 1) && decide (s.busyWorkers = 0)) (by decide +kernel)
  simp only [Bool.and_eq_true, decide_eq_true_eq] at hP
  obtain ⟨⟨hcounter, hnum⟩, hbusy⟩ := hP
  have hexact := (hclaim _ _ _ _ (by decide) (by decide) (by decide) hrun hcounter).exact
  rw [hnum, hbusy] at hexact
  cases hexact

end LinuxExercise.ThreadPool
