import LinuxExercise.ThreadPool.Workers

/-!
# No wake-up is lost while the pool is running

A task is signalled once, when it is added, and the manager signals the same condition
variable for another purpose; so what has to be counted is not signals but the workers that
are awake and free to take a task.  While the mutex is free there are at least as many of them
as queued tasks, unless no worker sleeps at all; and a call sleeps only while the queue is
full (`WakeView.Served 0` and `WakeView.Full`).

Inside a critical section the counts are off by the thread that is in it.  A worker that has
locked the mutex has left the idle ones, so it owes the queue one task; it either takes one or
finds the queue empty.  A call that has raised `queue_size` owes one signal; a worker that has
lowered it owes the broadcast of line 188.  The manager owes nothing: its signals only wake,
and the worker that one of them reaches cannot leave through the retirement branch, because
`pthread_alive_num` never exceeds `pthread_min_num` (`noRetire_of_run`).
-/

namespace LinuxExercise.ThreadPool

open Monitor

/-! ## What the wake-ups are about -/

/-- The worker is awake and on its way to take a task: it is about to lock the mutex for the
first time, again, or inside `pthread_cond_wait`. -/
def Worker.isIdle (w : Worker) : Bool :=
  match w.pc with
  | .lock | .woken => true
  | _ => false

/-- The queue's length and the threads that wait for it to change. -/
structure WakeView where
  size : ℤ
  capacity : ℕ
  /-- The workers blocked on `queue_not_empty`. -/
  sleeping : ℕ
  awake : ℕ
  /-- The calls blocked on `queue_not_full`. -/
  stalled : ℕ

/-- The view of a state. -/
def State.wakeView (s : State) : WakeView where
  size := s.pool.queueSize
  capacity := s.pool.queueMaxSize
  sleeping := s.workers.countP Worker.isBlocked
  awake := s.workers.countP Worker.isIdle
  stalled := s.adders.countP Adder.isBlocked

/-- Up to `extra` of them, the queued tasks have a worker that is awake. -/
def WakeView.Served (extra : ℕ) (v : WakeView) : Prop :=
  0 < v.sleeping → v.size ≤ v.awake + extra

/-- Calls sleep only while the queue is full. -/
def WakeView.Full (v : WakeView) : Prop := 0 < v.stalled → v.size = v.capacity

/-- The view while a call is inside the critical section. -/
def Adder.wakeAssertion (a : Adder) (v : WakeView) : Prop :=
  match a.pc with
  | .wait => v.size = v.capacity ∧ v.Served 0
  | .ifShutdown | .ifArgs | .freeArgs | .nullArgs | .storeArgs | .storeFunction | .moveRear
  | .incSize => v.stalled = 0 ∧ v.Served 0
  | .signal => v.stalled = 0 ∧ v.Served 1
  | _ => v.Served 0 ∧ v.Full

/-- The view while a worker is inside the critical section. -/
def Worker.wakeAssertion (w : Worker) (v : WakeView) : Prop :=
  match w.pc with
  | .wait => v.size = 0 ∧ v.Full
  | .broadcast => v.Served 0
  | .unlock => v.Served 0 ∧ v.Full
  -- A running pool has no worker that exits.
  | .decAlive | .exitRetire | .exitShutdown => False
  | _ => v.Served 1 ∧ v.Full

/-- The wake-ups as the resource of `pool->lock`. -/
def wakeMonitor : Monitor Local WakeView where
  holds := Local.holds
  free v := v.Served 0 ∧ v.Full
  inside
    | .add a, v => a.wakeAssertion v
    | .work w, v => w.wakeAssertion v
    | .manage _, v => v.Served 0 ∧ v.Full

/-! ## What other threads may do -/

/-- Between the two views some threads may have been woken, started or become idle. -/
structure WakeView.Eased (v v' : WakeView) : Prop where
  size : v'.size = v.size
  capacity : v'.capacity = v.capacity
  sleeping : v'.sleeping ≤ v.sleeping
  awake : v.awake ≤ v'.awake
  stalled : v'.stalled ≤ v.stalled

theorem WakeView.Eased.served {v v' : WakeView} (h : v.Eased v') {n : ℕ} (hs : v.Served n) :
    v'.Served n := by
  intro hpos
  have hle := hs (hpos.trans_le h.sleeping)
  have hsize := h.size
  have hawake := h.awake
  omega

theorem WakeView.Eased.full {v v' : WakeView} (h : v.Eased v') (hf : v.Full) : v'.Full := by
  intro hpos
  rw [h.size, h.capacity]
  exact hf (hpos.trans_le h.stalled)

theorem WakeView.Eased.stalled_eq {v v' : WakeView} (h : v.Eased v') (hz : v.stalled = 0) :
    v'.stalled = 0 := Nat.le_zero.mp (hz ▸ h.stalled)

theorem WakeView.Eased.stable {v v' : WakeView} (h : v.Eased v') : Stable wakeMonitor v v' := by
  refine ⟨fun hfree => ⟨h.served hfree.1, h.full hfree.2⟩, ?_⟩
  rintro (a | w | m) - hin
  · change a.wakeAssertion v at hin
    show a.wakeAssertion v'
    unfold Adder.wakeAssertion at hin ⊢
    split at hin
    case h_1 => exact ⟨by rw [h.size, h.capacity]; exact hin.1, h.served hin.2⟩
    case h_11 => exact ⟨h.served hin.1, h.full hin.2⟩
    all_goals exact ⟨h.stalled_eq hin.1, h.served hin.2⟩
  · change w.wakeAssertion v at hin
    show w.wakeAssertion v'
    unfold Worker.wakeAssertion at hin ⊢
    split at hin
    case h_1 => exact ⟨by rw [h.size]; exact hin.1, h.full hin.2⟩
    case h_2 => exact h.served hin
    case h_4 | h_5 | h_6 => exact hin.elim
    all_goals exact ⟨h.served hin.1, h.full hin.2⟩
  · exact ⟨h.served hin.1, h.full hin.2⟩

/-! ## How an effect changes the counts -/

/-- A signal wakes exactly one worker, unless none is blocked. -/
theorem WorkersAfter.signal {ws ws' : List Worker} (h : WorkersAfter ws .signalNotEmpty ws') :
    (ws'.countP Worker.isBlocked + 1 = ws.countP Worker.isBlocked ∧
      ws'.countP Worker.isIdle = ws.countP Worker.isIdle + 1) ∨
    (ws.countP Worker.isBlocked = 0 ∧ ws' = ws) := by
  generalize he : Effect.signalNotEmpty = e at h
  cases h with
  | @woken i w hw hb =>
    have hblocked := countP_set_add (p := Worker.isBlocked) (b := w.wake) hw
    have hidle := countP_set_add (p := Worker.isIdle) (b := w.wake) hw
    have hpc : w.pc = .blocked := by simpa [Worker.isBlocked] using hb
    have hwoken : w.wake.pc = .woken := by simp [Worker.wake, hpc]
    have hb' : w.wake.isBlocked = false := by simp [Worker.isBlocked, hwoken]
    have hi : w.isIdle = false := by simp [Worker.isIdle, hpc]
    have hi' : w.wake.isIdle = true := by simp [Worker.isIdle, hwoken]
    rw [hb, hb'] at hblocked
    rw [hi, hi'] at hidle
    exact .inl ⟨by simpa using hblocked, by simpa using hidle⟩
  | nobody hnone =>
    refine .inr ⟨List.countP_eq_zero.mpr fun w hw hb => ?_, rfl⟩
    rw [List.any_eq_true.mpr ⟨w, hw, hb⟩] at hnone
    cases hnone
  | all | created => cases he
  | same hne => exact absurd he.symm hne

/-- No effect puts a worker to sleep or makes an idle worker busy. -/
theorem WorkersAfter.eased {ws ws' : List Worker} {e : Effect} (h : WorkersAfter ws e ws') :
    ws'.countP Worker.isBlocked ≤ ws.countP Worker.isBlocked ∧
      ws.countP Worker.isIdle ≤ ws'.countP Worker.isIdle := by
  cases hws : h with
  | woken | nobody =>
    rcases h.signal with ⟨hb, hi⟩ | ⟨-, hsame⟩
    · exact ⟨by omega, by omega⟩
    · rw [hsame]
      exact ⟨le_rfl, le_rfl⟩
  | all =>
    rw [List.countP_map, List.countP_map]
    constructor
    · refine List.countP_mono_left fun w _ hb => ?_
      by_cases hpc : w.pc = .blocked
      · simp [Worker.isBlocked, hpc]
      · simpa [Worker.wake_eq_self hpc] using hb
    · refine List.countP_mono_left fun w _ hi => ?_
      have hpc : w.pc ≠ .blocked := by
        intro hpc
        simp [Worker.isIdle, hpc] at hi
      simpa [Worker.wake_eq_self hpc] using hi
  | created =>
    simp [List.countP_append, Worker.fresh, Worker.isBlocked]
  | same => exact ⟨le_rfl, le_rfl⟩

/-- After the broadcast of line 188 no call sleeps. -/
theorem countP_isBlocked_wake (as : List Adder) :
    (as.map Adder.wake).countP Adder.isBlocked = 0 := by
  rw [List.countP_eq_zero]
  intro a ha
  obtain ⟨b, -, rfl⟩ := List.mem_map.mp ha
  unfold Adder.wake
  split <;> simp_all [Adder.isBlocked]

/-- A statement outside `threadpool_add` and `threadpool_thread` puts nobody to sleep. -/
theorem Applied.wakeView_eased {s s₁ s' : State} {e : Effect} (h : Applied s₁ e s')
    (he : e ≠ .broadcastNotFull) (hadders : s₁.adders = s.adders)
    (hworkers : s₁.workers = s.workers) (hsize : s₁.pool.queueSize = s.pool.queueSize)
    (hcapacity : s₁.pool.queueMaxSize = s.pool.queueMaxSize) :
    s.wakeView.Eased s'.wakeView := by
  obtain ⟨hblocked, hidle⟩ := h.workers.eased
  rw [hworkers] at hblocked hidle
  have hadders' : s'.adders = s.adders := by rw [h.adders, if_neg he, hadders]
  refine ⟨?_, ?_, hblocked, hidle, ?_⟩
  · exact (congrArg Pool.queueSize h.pool).trans hsize
  · exact (congrArg Pool.queueMaxSize h.pool).trans hcapacity
  · simp only [State.wakeView, hadders']
    exact le_rfl

/-! ## Every statement keeps the assertions -/

section Owes

variable {v v' : WakeView} {p p' : Pool}

/-- The view agrees with the queue fields of the pool. -/
def WakeView.Of (p : Pool) (v : WakeView) : Prop :=
  v.size = p.queueSize ∧ v.capacity = p.queueMaxSize

theorem threadpoolAdd_wake {me : Thread} {a a' : Adder} {e : Effect}
    (h : threadpoolAdd me p a = some (p', a', e)) (hrel : a'.released = false)
    (hrun : p.shutdown = false) (hv : v.Of p) (hv' : v'.Of p')
    (hstalled : v'.stalled + (if a.isBlocked then 1 else 0) =
      v.stalled + if a'.isBlocked then 1 else 0)
    (hsignal : e = .signalNotEmpty →
      (v'.sleeping + 1 = v.sleeping ∧ v'.awake = v.awake + 1) ∨
      (v.sleeping = 0 ∧ v'.sleeping = v.sleeping ∧ v'.awake = v.awake))
    (hquiet : e ≠ .signalNotEmpty → v'.sleeping = v.sleeping ∧ v'.awake = v.awake) :
    wakeMonitor.Owes (.add a) (.add a') v v' := by
  obtain ⟨hrel₀, hpc⟩ := threadpoolAdd_released h hrel
  obtain ⟨pc, f, x, released, unlocks⟩ := a
  obtain rfl : released = false := hrel₀
  obtain ⟨hsize, hcap⟩ := hv
  obtain ⟨hsize', hcap'⟩ := hv'
  cases pc <;> simp only [threadpoolAdd, hrun, true_and] at h
  case unlockShutdown => exact absurd rfl hpc
  case blocked | returned => cases h
  all_goals try split at h
  all_goals cases h
  case ifShutdown.isTrue hs => cases hs
  all_goals
    simp only [Adder.isBlocked, reduceCtorEq, decide_false, decide_true, Bool.false_eq_true,
      if_false, if_true, Nat.add_zero] at hstalled
    simp only [Owes, wakeMonitor, Local.holds, Adder.holds, Adder.wakeAssertion, WakeView.Served,
      WakeView.Full, Bool.not_false]
    simp only [reduceCtorEq, ne_eq, not_false_eq_true, not_true_eq_false, true_implies,
      false_implies] at hsignal hquiet hsize' hcap'
    omega

theorem threadpoolThread_wake {me : Thread} {n : ℕ} {w w' : Worker} {e : Effect}
    (h : threadpoolThread me n p w = some (p', w', e)) (hrun : p.shutdown = false)
    (halive : p.pthreadAliveNum = p.pthreadMinNum) (hv : v.Of p) (hv' : v'.Of p')
    (hsleeping : v'.sleeping + (if w.isBlocked then 1 else 0) =
      v.sleeping + if w'.isBlocked then 1 else 0)
    (hawake : v'.awake + (if w.isIdle then 1 else 0) = v.awake + if w'.isIdle then 1 else 0)
    (hbroadcast : e = .broadcastNotFull → v'.stalled = 0)
    (hquiet : e ≠ .broadcastNotFull → v'.stalled = v.stalled) :
    wakeMonitor.Owes (.work w) (.work w') v v' := by
  obtain ⟨pc, task, number⟩ := w
  obtain ⟨hsize, hcap⟩ := hv
  obtain ⟨hsize', hcap'⟩ := hv'
  cases pc <;> simp only [threadpoolThread, hrun, true_and] at h
  case blocked | exited => cases h
  case ifAlive =>
    rw [if_neg (by omega)] at h
    cases h
    have := hquiet (by simp)
    simp only [Worker.isBlocked, Worker.isIdle, reduceCtorEq, decide_false, Bool.false_eq_true,
      if_false, Nat.add_zero] at hsleeping hawake
    simp only [Owes, wakeMonitor, Local.holds, Worker.holds, Worker.wakeAssertion,
      WakeView.Served, WakeView.Full]
    omega
  all_goals try split at h
  all_goals cases h
  case ifShutdown.isTrue hs => cases hs
  case decAlive | exitRetire | exitShutdown => exact False.elim
  case lockCounter.isTrue | incBusy | unlockCounter | call | running =>
    -- Outside the critical section a worker can only become idle.
    have hstalled := hquiet (by simp)
    simp only [Worker.isBlocked, Worker.isIdle, reduceCtorEq, decide_false, Bool.false_eq_true,
      if_false, if_true, Nat.add_zero] at hsleeping hawake
    exact WakeView.Eased.stable
      ⟨hsize'.trans hsize.symm, hcap'.trans hcap.symm, by omega, by omega, by omega⟩
  all_goals
    simp only [Worker.isBlocked, Worker.isIdle, reduceCtorEq, decide_false, decide_true,
      Bool.false_eq_true, if_false, if_true, Nat.add_zero] at hsleeping hawake
    simp only [Owes, wakeMonitor, Local.holds, Worker.holds, Worker.wakeAssertion,
      WakeView.Served, WakeView.Full]
    simp only [reduceCtorEq, ne_eq, not_false_eq_true, not_true_eq_false, true_implies,
      false_implies] at hbroadcast hquiet hsize' hcap'
    omega

/-- The manager never changes the queue, and its effects only wake or create workers. -/
theorem WakeView.Eased.manage {m m' : Adjust} (h : v.Eased v') :
    wakeMonitor.Owes (.manage m) (.manage m') v v' := by
  unfold Owes
  split
  · exact h.stable
  all_goals exact fun hin => ⟨h.served hin.1, h.full hin.2⟩

end Owes

/-! ## The invariant -/

theorem wake_obligations {s s' : State} {l : Label} (hstep : Stepped s l s')
    (hrun : s.pool.shutdown = false) (halive : s.pool.pthreadAliveNum = s.pool.pthreadMinNum) :
    Obligations wakeMonitor State.wakeView s l s' where
  add {i choice a a' p e} _ ha hadd hrel hap := by
    have hadders := hap.adders_of_add hadd
    refine threadpoolAdd_wake hadd hrel hrun ⟨rfl, rfl⟩ ⟨?_, ?_⟩ ?_ (fun he => ?_) fun he => ?_
    · simp [State.wakeView, hap.pool, State.setAdder]
    · simp [State.wakeView, hap.pool, State.setAdder]
    · simp only [State.wakeView, hadders]
      exact countP_set_add ha
    · have hws := hap.workers
      rw [he] at hws
      rcases hws.signal with hone | ⟨hnone, hsame⟩
      · exact .inl hone
      · refine .inr ⟨hnone, ?_⟩
        simp only [State.wakeView, hsame]
        exact ⟨rfl, rfl⟩
    · obtain ⟨-, hbroadcast, hcreate, -⟩ := threadpoolAdd_effect hadd
      have hws := hap.workers.eq_of_quiet he hbroadcast hcreate
      simp only [State.wakeView, hws]
      exact ⟨rfl, rfl⟩
  work {i w w' p e} _ hw hwork hap := by
    have hworkers := hap.workers_of_work hwork
    refine threadpoolThread_wake hwork hrun halive ⟨rfl, rfl⟩ ⟨?_, ?_⟩ ?_ ?_ (fun he => ?_)
      fun he => ?_
    · simp [State.wakeView, hap.pool, State.setWorker]
    · simp [State.wakeView, hap.pool, State.setWorker]
    · simp only [State.wakeView, hworkers]
      exact countP_set_add hw
    · simp only [State.wakeView, hworkers]
      exact countP_set_add hw
    · simp only [State.wakeView, hap.adders, if_pos he]
      exact countP_isBlocked_wake _
    · simp only [State.wakeView, hap.adders, if_neg he]
      rfl
  adjust {answer choice m p e} _ hadj hap := by
    refine WakeView.Eased.manage (hap.wakeView_eased ?_ rfl rfl ?_ ?_)
    · rcases adjustThread_effect hadj with rfl | rfl | rfl <;> simp
    · rw [adjustThread_frame hadj]
    · rw [adjustThread_frame hadj]
  passive hadd hwork hadj := by
    cases hstep with
    | add => exact absurd rfl (hadd _ _)
    | work => exact absurd rfl (hwork _)
    | adjust => exact absurd rfl (hadj _ _)
    | call f x =>
      refine WakeView.Eased.stable ⟨rfl, rfl, le_rfl, le_rfl, ?_⟩
      simp [State.wakeView, List.countP_append, Adder.isBlocked]
    | @destroy d p e _ hdes happ =>
      refine WakeView.Eased.stable ((applied_of_apply happ).wakeView_eased ?_ rfl rfl ?_ ?_)
      · rcases threadpoolDestroy_effect hdes with rfl | rfl | rfl <;> simp
      · rw [(threadpoolDestroy_frame hdes).1]
      · rw [(threadpoolDestroy_frame hdes).1]
    | @wakeAdd i a ha hb =>
      have hcount := countP_set_add (p := Adder.isBlocked) (b := a.wake) ha
      refine WakeView.Eased.stable ⟨rfl, rfl, le_rfl, le_rfl, ?_⟩
      have hwoken : a.wake.isBlocked = false := by
        have hpc : a.pc = .blocked := by simpa [Adder.isBlocked] using hb
        simp [Adder.wake, Adder.isBlocked, hpc]
      rw [hb, hwoken] at hcount
      simp only [State.wakeView, State.setAdder]
      simp at hcount
      omega
    | @wakeWork i w hw hb =>
      obtain ⟨hblocked, hidle⟩ := (WorkersAfter.woken hw hb).eased
      exact WakeView.Eased.stable ⟨rfl, rfl, hblocked, hidle, le_rfl⟩

/-- The invariant of the wake-ups, for every run of a pool that is still running. -/
theorem wakeInv_of_run {c : Config} {m : Memory} {h : History} {s : State}
    (hrun : (threadpool c m).Run h s) :
    s.pool.shutdown = false → wakeMonitor.Inv (s.view State.wakeView) := by
  refine hrun.invariant_on (C := fun s => s.pool.shutdown = false)
    (I := fun s => wakeMonitor.Inv (s.view State.wakeView))
    (fun s l s' hstep => (stepped_of_run hstep).running) ?_ ?_
  · rintro s rfl -
    refine created_monitorInv (fun _ => rfl) ⟨fun hpos => ?_, fun hpos => ?_⟩
    · simp [State.wakeView, created, Worker.fresh, Worker.isBlocked, List.countP_replicate] at hpos
    · simp [State.wakeView, created] at hpos
  · intro s l s' hreach hstep hs hs' hinv
    obtain ⟨h, hr⟩ := hreach
    have hrel : NoEarlyUnlock s' := noEarlyUnlock_of_running (hr.step hstep) hs'
    exact monitorInv_step (fun _ => rfl) (stepped_of_run hstep) hrel
      (wake_obligations (stepped_of_run hstep) hs (noRetire_of_run hr).alive) hinv

/-- **No lost wake-up.**  While the pool is running and the mutex is free, a worker sleeps only
if there are as many workers awake and without a task as there are tasks queued, and a call
sleeps only if the queue is full. -/
theorem no_lost_wakeup (c : Config) (m : Memory) (h : History) (s : State)
    (hrun : (threadpool c m).Run h s) (hshut : s.pool.shutdown = false)
    (hfree : s.pool.lock = none) :
    ((∃ w ∈ s.workers, w.isBlocked = true) →
      s.pool.queueSize ≤ s.workers.countP Worker.isIdle) ∧
    ((∃ a ∈ s.adders, a.isBlocked = true) → s.pool.queueSize = s.pool.queueMaxSize) := by
  obtain ⟨hserved, hfull⟩ := (wakeInv_of_run hrun hshut).free hfree
  constructor
  · rintro ⟨w, hw, hb⟩
    have hpos : 0 < s.workers.countP Worker.isBlocked := List.countP_pos_iff.mpr ⟨w, hw, hb⟩
    simpa [State.view, State.wakeView] using hserved hpos
  · rintro ⟨a, ha, hb⟩
    exact hfull (List.countP_pos_iff.mpr ⟨a, ha, hb⟩)

/-- Two workers sleep, a task is added: one of them is awake for it. -/
theorem no_lost_wakeup_one_of_two :
    ∃ h s, (threadpool ⟨2, 2, 1⟩ .cleared).Run h s ∧ (∃ w ∈ s.workers, w.isBlocked = true) ∧
      s.pool.queueSize = 1 ∧ s.pool.queueSize ≤ s.workers.countP Worker.isIdle := by
  obtain ⟨h, s, hrun, hP⟩ := exists_run_of_schedule ⟨2, 2, 1⟩ .cleared
    (List.replicate 3 (.work 0) ++ List.replicate 3 (.work 1) ++ addSchedule 0 1 1)
    (fun _ s => !s.pool.shutdown && decide (s.pool.lock = none) && s.workers.any Worker.isBlocked &&
      decide (s.pool.queueSize = 1)) (by decide +kernel)
  simp only [Bool.and_eq_true, Bool.not_eq_true', decide_eq_true_eq, List.any_eq_true] at hP
  obtain ⟨⟨⟨hshut, hlock⟩, hblocked⟩, hsize⟩ := hP
  exact ⟨h, s, hrun, hblocked, hsize, (no_lost_wakeup _ _ h s hrun hshut hlock).1 hblocked⟩

end LinuxExercise.ThreadPool
