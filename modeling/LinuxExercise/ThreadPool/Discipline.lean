import LinuxExercise.ThreadPool.State

/-!
# What a statement of each function can do

For every function of the pool: how a statement treats `pool->lock` (`_discipline`), which
effects it may have (`_effect`), and which fields of the pool it leaves alone (`_frame`).  The
invariants of the pool are derived from these and do not unfold a function they are not about.

Every statement of `threadpool_thread` and `adjust_thread` respects the mutex.  A statement of
`threadpool_add` does so unless the call has executed the unlock of line 123, after which it
runs lines 127-142 without the mutex and unlocks it once more.
-/

namespace LinuxExercise.ThreadPool

open Monitor

/-! ## Who holds the mutex -/

/-- The locals of a thread. -/
inductive Local
  | add (a : Adder)
  | work (w : Worker)
  | manage (m : Adjust)

/-- A call holds the mutex from line 118 to line 142, unless it gave it up at line 123. -/
def Adder.holds (a : Adder) : Bool :=
  match a.pc with
  | .whileFull | .wait | .ifShutdown | .unlockShutdown => true
  | .ifArgs | .freeArgs | .nullArgs | .storeArgs | .storeFunction | .moveRear | .incSize
  | .signal | .unlock => !a.released
  | .lock | .blocked | .woken | .returned => false

/-- A worker holds the mutex from line 159 to line 191, except inside `pthread_cond_wait`. -/
def Worker.holds (w : Worker) : Bool :=
  match w.pc with
  | .whileEmpty | .wait | .ifWaitExit | .decWaitExit | .ifAlive | .decAlive | .exitRetire
  | .ifShutdown | .exitShutdown | .takeFunction | .takeArgs | .moveFront | .decSize
  | .broadcast | .unlock => true
  | .lock | .blocked | .woken | .lockCounter | .incBusy | .unlockCounter | .call | .running
  | .exited => false

/-- The manager holds the mutex in its three critical sections. -/
def Adjust.holds (m : Adjust) : Bool :=
  match m.pc with
  | .readSize | .readAlive | .unlockSnapshot | .forSlot | .ifSlot | .create | .unlockGrow
  | .setWaitExit | .unlockRetire => true
  | .whileShutdown | .lockSnapshot | .ifBacklog | .lockGrow | .lockCounter | .readBusy
  | .unlockCounter | .ifIdle | .lockRetire | .signal | .sleep | .returned => false

/-- The thread holds `pool->lock`. -/
def Local.holds : Local → Bool
  | .add a => a.holds
  | .work w => w.holds
  | .manage m => m.holds

/-! ## The discipline of each statement -/

theorem threadpoolAdd_discipline {me : Thread} {p p' : Pool} {a a' : Adder} {e : Effect}
    (h : threadpoolAdd me p a = some (p', a', e)) (hrel : a'.released = false) :
    Discipline me p.lock a.holds p'.lock a'.holds := by
  obtain ⟨pc, f, x, released, unlocks⟩ := a
  cases pc <;> simp only [threadpoolAdd] at h
  case lock | woken =>
    split at h
    · next hfree =>
      cases h
      rw [hfree]
      exact .acquire
    · cases h
  case whileFull | ifShutdown | ifArgs =>
    split at h <;> cases h <;> simp_all [Adder.holds, Discipline.keep]
  case blocked | returned => cases h
  all_goals cases h
  case wait => exact .release
  case unlockShutdown => cases hrel
  case unlock =>
    obtain rfl : released = false := hrel
    exact .release
  all_goals exact .keep

theorem threadpoolAdd_released {me : Thread} {p p' : Pool} {a a' : Adder} {e : Effect}
    (h : threadpoolAdd me p a = some (p', a', e)) (hrel : a'.released = false) :
    a.released = false ∧ a.pc ≠ .unlockShutdown := by
  obtain ⟨pc, f, x, released, unlocks⟩ := a
  cases pc <;> simp only [threadpoolAdd] at h
  all_goals try split at h
  all_goals cases h
  all_goals simp_all

theorem threadpoolThread_discipline {me : Thread} {n : ℕ} {p p' : Pool} {w w' : Worker}
    {e : Effect} (h : threadpoolThread me n p w = some (p', w', e)) :
    Discipline me p.lock w.holds p'.lock w'.holds := by
  obtain ⟨pc, task, number⟩ := w
  cases pc <;> simp only [threadpoolThread] at h
  case lock | woken =>
    split at h
    · next hfree =>
      cases h
      rw [hfree]
      exact .acquire
    · cases h
  case whileEmpty | ifWaitExit | ifAlive | ifShutdown => split at h <;> cases h <;> exact .keep
  case lockCounter =>
    split at h
    · cases h
      exact .keep
    · cases h
  case blocked | exited => cases h
  all_goals cases h
  case wait | exitRetire | exitShutdown | unlock => exact .release
  all_goals exact .keep

theorem adjustThread_discipline {alive : Bool} {tid : ℕ} {p p' : Pool} {m m' : Adjust}
    {e : Effect} (h : adjustThread alive tid p m = some (p', m', e)) :
    Discipline .adjust p.lock m.holds p'.lock m'.holds := by
  obtain ⟨pc, i, qs, al, ad, bu⟩ := m
  cases pc <;> simp only [adjustThread] at h
  case lockSnapshot | lockGrow | lockRetire =>
    split at h
    · next hfree =>
      cases h
      rw [hfree]
      exact .acquire
    · cases h
  case lockCounter =>
    split at h
    · cases h
      exact .keep
    · cases h
  case whileShutdown | ifBacklog | forSlot | ifSlot | ifIdle | signal =>
    split at h <;> cases h <;> exact .keep
  case returned => cases h
  all_goals cases h
  case unlockSnapshot | unlockGrow | unlockRetire => exact .release
  all_goals exact .keep

/-! ## Which effects each function has -/

theorem threadpoolAdd_effect {me : Thread} {p p' : Pool} {a a' : Adder} {e : Effect}
    (h : threadpoolAdd me p a = some (p', a', e)) :
    e ≠ .broadcastNotFull ∧ e ≠ .broadcastNotEmpty ∧ e ≠ .create ∧ e ≠ .freePool ∧
      e.takes = [] := by
  obtain ⟨pc, f, x, released, unlocks⟩ := a
  cases pc <;> simp only [threadpoolAdd] at h
  all_goals try split at h
  all_goals cases h
  all_goals simp [Effect.takes]

theorem threadpoolThread_effect {me : Thread} {n : ℕ} {p p' : Pool} {w w' : Worker} {e : Effect}
    (h : threadpoolThread me n p w = some (p', w', e)) :
    e ≠ .signalNotEmpty ∧ e ≠ .broadcastNotEmpty ∧ e ≠ .create ∧ e ≠ .freePool ∧
      e.accepts = [] ∧ e.frees = [] := by
  obtain ⟨pc, task, number⟩ := w
  cases pc <;> simp only [threadpoolThread] at h
  all_goals try split at h
  all_goals cases h
  all_goals simp [Effect.accepts, Effect.frees]

theorem adjustThread_effect {alive : Bool} {tid : ℕ} {p p' : Pool} {m m' : Adjust} {e : Effect}
    (h : adjustThread alive tid p m = some (p', m', e)) :
    e = .none ∨ e = .signalNotEmpty ∨ e = .create := by
  obtain ⟨pc, i, qs, al, ad, bu⟩ := m
  cases pc <;> simp only [adjustThread] at h
  all_goals try split at h
  all_goals cases h
  all_goals simp

/-- Lines 225-227, and only they, create a thread. -/
theorem adjustThread_create_iff {alive : Bool} {tid : ℕ} {p p' : Pool} {m m' : Adjust}
    {e : Effect} (h : adjustThread alive tid p m = some (p', m', e)) :
    e = .create ↔ m.pc = .create := by
  obtain ⟨pc, i, qs, al, ad, bu⟩ := m
  cases pc <;> simp only [adjustThread] at h
  all_goals try split at h
  all_goals cases h
  all_goals simp

/-- Outside lines 225-227 the manager leaves the slots alone. -/
theorem adjustThread_threads {alive : Bool} {tid : ℕ} {p p' : Pool} {m m' : Adjust} {e : Effect}
    (h : adjustThread alive tid p m = some (p', m', e)) (hpc : m.pc ≠ .create) :
    p'.threads = p.threads := by
  obtain ⟨pc, i, qs, al, ad, bu⟩ := m
  cases pc <;> simp only [adjustThread] at h
  case create => exact absurd rfl hpc
  all_goals try split at h
  all_goals cases h
  all_goals rfl

/-- The scan reaches lines 224-227 with an index below `pthread_max_num`. -/
theorem adjustThread_scan {alive : Bool} {tid : ℕ} {p p' : Pool} {m m' : Adjust} {e : Effect}
    (h : adjustThread alive tid p m = some (p', m', e)) (hpc : m.pc ≠ .create)
    (hm : m'.pc = .ifSlot ∨ m'.pc = .create) :
    m'.i = m.i ∧ (m.pc = .ifSlot ∨ m.i < p.pthreadMaxNum) := by
  obtain ⟨pc, i, qs, al, ad, bu⟩ := m
  cases pc <;> simp only [adjustThread] at h
  case create => exact absurd rfl hpc
  all_goals try split at h
  all_goals cases h
  all_goals simp_all

/-- Line 225 is reached from line 224, when the slot is unset or its thread is not alive. -/
theorem adjustThread_ifSlot {alive : Bool} {tid : ℕ} {p p' : Pool} {m m' : Adjust} {e : Effect}
    (h : adjustThread alive tid p m = some (p', m', e)) (hm : m'.pc = .create) :
    m'.i = m.i ∧ (p.threads.getD m.i 0 = 0 ∨ alive = false) := by
  obtain ⟨pc, i, qs, al, ad, bu⟩ := m
  cases pc <;> simp only [adjustThread] at h
  all_goals try split at h
  all_goals cases h
  all_goals simp_all

/-- Only line 136 counts a task in. -/
theorem threadpoolAdd_accept {me : Thread} {p p' : Pool} {a a' : Adder} {t : Task}
    (h : threadpoolAdd me p a = some (p', a', .accept t)) : a.pc = .incSize ∧ t = a.task := by
  obtain ⟨pc, f, x, released, unlocks⟩ := a
  cases pc <;> simp only [threadpoolAdd] at h
  all_goals try split at h
  all_goals cases h
  exact ⟨rfl, rfl⟩

/-- Only line 186 counts a task out. -/
theorem threadpoolThread_take {me : Thread} {n : ℕ} {p p' : Pool} {w w' : Worker} {t : Task}
    (h : threadpoolThread me n p w = some (p', w', .take t)) : w.pc = .decSize ∧ t = w.task := by
  obtain ⟨pc, task, number⟩ := w
  cases pc <;> simp only [threadpoolThread] at h
  all_goals try split at h
  all_goals cases h
  exact ⟨rfl, rfl⟩

theorem threadpoolDestroy_effect {md wd : Bool} {p p' : Pool} {d d' : Destroy} {e : Effect}
    (h : threadpoolDestroy md wd p d = some (p', d', e)) :
    e = .none ∨ e = .broadcastNotEmpty ∨ e = .freePool := by
  obtain ⟨pc, i⟩ := d
  cases pc <;> simp only [threadpoolDestroy] at h
  all_goals repeat' split at h
  all_goals cases h
  all_goals simp

/-- A statement of `threadpool_destroy` touches no mutex. -/
theorem threadpoolDestroy_lock {md wd : Bool} {p p' : Pool} {d d' : Destroy} {e : Effect}
    (h : threadpoolDestroy md wd p d = some (p', d', e)) : p'.lock = p.lock := by
  obtain ⟨pc, i⟩ := d
  cases pc <;> simp only [threadpoolDestroy] at h
  all_goals repeat' split at h
  all_goals cases h
  all_goals rfl

/-! ## What each function leaves alone -/

theorem threadpoolAdd_frame {me : Thread} {p p' : Pool} {a a' : Adder} {e : Effect}
    (h : threadpoolAdd me p a = some (p', a', e)) :
    p' = { p with lock := p'.lock, taskQueue := p'.taskQueue, queueRear := p'.queueRear,
                  queueSize := p'.queueSize } := by
  obtain ⟨pc, f, x, released, unlocks⟩ := a
  cases pc <;> simp only [threadpoolAdd] at h
  all_goals try split at h
  all_goals cases h
  all_goals rfl

theorem threadpoolThread_frame {me : Thread} {n : ℕ} {p p' : Pool} {w w' : Worker} {e : Effect}
    (h : threadpoolThread me n p w = some (p', w', e)) :
    p' = { p with lock := p'.lock, threadCounter := p'.threadCounter,
                  pthreadAliveNum := p'.pthreadAliveNum, pthreadBusyNum := p'.pthreadBusyNum,
                  pthreadWaitExitNum := p'.pthreadWaitExitNum, queueFront := p'.queueFront,
                  queueSize := p'.queueSize } := by
  obtain ⟨pc, task, number⟩ := w
  cases pc <;> simp only [threadpoolThread] at h
  all_goals try split at h
  all_goals cases h
  all_goals rfl

theorem adjustThread_frame {alive : Bool} {tid : ℕ} {p p' : Pool} {m m' : Adjust} {e : Effect}
    (h : adjustThread alive tid p m = some (p', m', e)) :
    p' = { p with lock := p'.lock, threadCounter := p'.threadCounter, threads := p'.threads,
                  pthreadWaitExitNum := p'.pthreadWaitExitNum } := by
  obtain ⟨pc, i, qs, al, ad, bu⟩ := m
  cases pc <;> simp only [adjustThread] at h
  all_goals try split at h
  all_goals cases h
  all_goals rfl

theorem threadpoolDestroy_frame {md wd : Bool} {p p' : Pool} {d d' : Destroy} {e : Effect}
    (h : threadpoolDestroy md wd p d = some (p', d', e)) :
    p' = { p with shutdown := p'.shutdown } ∧ (p.shutdown = true → p'.shutdown = true) := by
  obtain ⟨pc, i⟩ := d
  cases pc <;> simp only [threadpoolDestroy] at h
  all_goals repeat' split at h
  all_goals cases h
  all_goals exact ⟨rfl, by simp⟩

/-! ## The configuration never changes -/

/-- The fields that hold the arguments of `threadpool_create`. -/
def Pool.config (p : Pool) : Config := ⟨p.pthreadMinNum, p.pthreadMaxNum, p.queueMaxSize⟩

theorem Stepped.config {s s' : State} {l : Label} (h : Stepped s l s') :
    s'.pool.config = s.pool.config := by
  cases h with
  | call | wakeAdd | wakeWork => rfl
  | add _ hadd happ =>
    rw [(applied_of_apply happ).pool, State.setAdder, threadpoolAdd_frame hadd]; rfl
  | work _ hwork happ =>
    rw [(applied_of_apply happ).pool, State.setWorker, threadpoolThread_frame hwork]; rfl
  | adjust hadj happ => rw [(applied_of_apply happ).pool, adjustThread_frame hadj]; rfl
  | destroy hdes happ => rw [(applied_of_apply happ).pool, (threadpoolDestroy_frame hdes).1]; rfl

theorem config_of_run {c : Config} {m : Memory} {h : History} {s : State}
    (hrun : (threadpool c m).Run h s) : s.pool.config = c :=
  hrun.invariant (I := fun s => s.pool.config = c) (by rintro s rfl; rfl)
    fun _ _ _ _ hstep hc => (stepped_of_run hstep).config.trans hc

theorem Stepped.shutdown {s s' : State} {l : Label} (h : Stepped s l s')
    (hs : s.pool.shutdown = true) : s'.pool.shutdown = true := by
  cases h with
  | call | wakeAdd | wakeWork => exact hs
  | add _ hadd happ =>
    rw [(applied_of_apply happ).pool, State.setAdder, threadpoolAdd_frame hadd]; exact hs
  | work _ hwork happ =>
    rw [(applied_of_apply happ).pool, State.setWorker, threadpoolThread_frame hwork]; exact hs
  | adjust hadj happ => rw [(applied_of_apply happ).pool, adjustThread_frame hadj]; exact hs
  | destroy hdes happ =>
    rw [(applied_of_apply happ).pool]; exact (threadpoolDestroy_frame hdes).2 hs

/-- A pool that is running was running before. -/
theorem Stepped.running {s s' : State} {l : Label} (h : Stepped s l s')
    (hs : s'.pool.shutdown = false) : s.pool.shutdown = false := by
  by_contra hne
  rw [h.shutdown (by simpa using hne)] at hs
  cases hs

end LinuxExercise.ThreadPool
