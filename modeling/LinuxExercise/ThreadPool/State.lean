import LinuxExercise.Framework.Monitor
import LinuxExercise.ThreadPool.Model

/-!
# The thread pool as a labelled system

A `State` is the pool, every thread that uses it and the history of the queue.  A `Label`
names the thread that executes its next statement, and resolves what POSIX leaves open: which
waiter a signal unblocks, a spurious wake-up, and the answer of `pthread_kill` for an id that
does not belong to a live thread.  `step` is executable, and `threadpool c m` is the system of
its runs, from the state in which `threadpool_create` returns; `m` is the content of the
memory that `malloc` handed out.

The per-statement functions never change another thread's locals; what a step does to other
threads is its `Effect`, and `State.apply` carries it out.
-/

namespace LinuxExercise.ThreadPool

/-- The pool, its threads and the history of the queue. -/
structure State where
  pool : Pool
  /-- The calls of `threadpool_add`, in the order they were made. -/
  adders : List Adder
  /-- The worker threads, in the order they were created. -/
  workers : List Worker
  adjust : Adjust
  destroy : Destroy
  /-- History: the tasks counted into `queue_size`, in order. -/
  accepted : List Task
  /-- History: the tasks workers copied out and counted out of `queue_size`, in order. -/
  taken : List Task
  /-- History: the pointers passed to `free` by `threadpool_add`, in order. -/
  freed : List ℕ
  /-- History: `threadpool_free` has run. -/
  poolFreed : Bool
  deriving Repr

/-! ## Condition variables -/

/-- A wake-up of a call blocked on `queue_not_full`. -/
def Adder.wake (a : Adder) : Adder := if a.pc = .blocked then { a with pc := .woken } else a

/-- A wake-up of a worker blocked on `queue_not_empty`. -/
def Worker.wake (w : Worker) : Worker := if w.pc = .blocked then { w with pc := .woken } else w

/-- The worker is blocked on `queue_not_empty` with no wake-up pending. -/
def Worker.isBlocked (w : Worker) : Bool := decide (w.pc = .blocked)

/-- The call is blocked on `queue_not_full` with no wake-up pending. -/
def Adder.isBlocked (a : Adder) : Bool := decide (a.pc = .blocked)

/-- The worker thread has not terminated. -/
def Worker.isLive (w : Worker) : Bool := decide (w.pc ≠ .exited)

/-- `pthread_cond_signal(&queue_not_empty)`: one blocked worker, the `choice`-th thread, is
woken if there is any. -/
def pthreadCondSignal (ws : List Worker) (choice : ℕ) : Option (List Worker) :=
  if ws.any Worker.isBlocked then
    match ws[choice]? with
    | some w => if w.isBlocked then some (ws.set choice w.wake) else none
    | none => none
  else some ws

/-- Carry out the effect of a step; `choice` is the worker that a signal unblocks. -/
def State.apply (s : State) (choice : ℕ) : Effect → Option State
  | .none => some s
  | .signalNotEmpty =>
    (pthreadCondSignal s.workers choice).map fun ws => { s with workers := ws }
  | .broadcastNotEmpty => some { s with workers := s.workers.map Worker.wake }
  | .broadcastNotFull => some { s with adders := s.adders.map Adder.wake }
  | .accept t => some { s with accepted := s.accepted ++ [t] }
  | .take t => some { s with taken := s.taken ++ [t] }
  | .free x => some { s with freed := s.freed ++ [x] }
  | .create => some { s with workers := s.workers ++ [Worker.fresh] }
  | .freePool => some { s with poolFreed := true }

/-! ## Thread ids -/

/-- Some live worker has the id `tid`. -/
def State.isLiveTid (s : State) (tid : ℕ) : Bool :=
  match tid with
  | 0 => false
  | i + 1 => (s.workers[i]?).any Worker.isLive

/-- `pthread_is_alive`: a live thread is reported alive; for any other id the answer of
`pthread_kill` is open. -/
def pthreadIsAlive (s : State) (tid : ℕ) (answer : Bool) : Bool := s.isLiveTid tid || answer

/-- The id `tid` belongs to a worker that has terminated. -/
def State.isDoneTid (s : State) (tid : ℕ) : Bool :=
  match tid with
  | 0 => false
  | i + 1 => (s.workers[i]?).any fun w => !w.isLive

/-! ## Steps -/

/-- Which thread executes its next statement. -/
inductive Label
  /-- Some thread calls `threadpool_add(pool, function, args)`. -/
  | call (function args : ℕ)
  /-- The `i`-th call goes on. -/
  | add (i choice : ℕ)
  /-- The `i`-th worker goes on. -/
  | work (i : ℕ)
  /-- The manager thread goes on; `answer` is `pthread_kill`'s where it is open. -/
  | adjust (answer : Bool) (choice : ℕ)
  /-- The thread destroying the pool goes on. -/
  | destroy
  /-- The `i`-th call wakes spuriously. -/
  | wakeAdd (i : ℕ)
  /-- The `i`-th worker wakes spuriously. -/
  | wakeWork (i : ℕ)
  deriving DecidableEq, Repr

/-- One step of the pool. -/
def step (s : State) : Label → Option State
  | .call f x => some { s with adders := s.adders ++ [⟨.lock, f, x, false, 0⟩] }
  | .add i choice =>
    match s.adders[i]? with
    | none => none
    | some a =>
      match threadpoolAdd (.adder i) s.pool a with
      | none => none
      | some (p, a', e) => { s with pool := p, adders := s.adders.set i a' }.apply choice e
  | .work i =>
    match s.workers[i]? with
    | none => none
    | some w =>
      match threadpoolThread (.worker i) s.taken.length s.pool w with
      | none => none
      | some (p, w', e) => { s with pool := p, workers := s.workers.set i w' }.apply 0 e
  | .adjust answer choice =>
    match adjustThread (pthreadIsAlive s (s.pool.threads.getD s.adjust.i 0) answer)
        (tidOf s.workers.length) s.pool s.adjust with
    | none => none
    | some (p, m, e) => { s with pool := p, adjust := m }.apply choice e
  | .destroy =>
    match threadpoolDestroy (decide (s.adjust.pc = .returned))
        (s.isDoneTid (s.pool.threads.getD s.destroy.i 0)) s.pool s.destroy with
    | none => none
    | some (p, d, e) => { s with pool := p, destroy := d }.apply 0 e
  | .wakeAdd i =>
    match s.adders[i]? with
    | none => none
    | some a => if a.isBlocked then some { s with adders := s.adders.set i a.wake } else none
  | .wakeWork i =>
    match s.workers[i]? with
    | none => none
    | some w => if w.isBlocked then some { s with workers := s.workers.set i w.wake } else none

/-! ## Creation -/

/-- The arguments of `threadpool_create`. -/
structure Config where
  threadMinNum : ℕ
  threadMaxNum : ℕ
  queueMaxSize : ℕ
  deriving DecidableEq, Repr

/-- What the blocks returned by `malloc` contain. -/
structure Memory where
  threads : ℕ → ℕ
  taskQueue : ℕ → Task

/-- The loop of lines 97-100: the first `n` slots get the ids of the initial workers. -/
def startThreads (ts : List ℕ) : ℕ → List ℕ
  | 0 => ts
  | n + 1 => (startThreads ts n).set n (tidOf n)

/-- The uninitialised content of the task ring. -/
def Memory.ring (m : Memory) (c : Config) : List Task := (List.range c.queueMaxSize).map m.taskQueue

/-- The pool that `threadpool_create` returns.  The `memset` of line 80 has the size of the
pointer `pool->threads`, which is the size of one `pthread_t`, so it clears the first slot
only; the task ring is not cleared at all. -/
def threadpoolCreate (c : Config) (m : Memory) : Pool where
  lock := none
  threadCounter := none
  threads :=
    startThreads (((List.range c.threadMaxNum).map m.threads).set 0 0) c.threadMinNum
  taskQueue := m.ring c
  pthreadMinNum := c.threadMinNum
  pthreadMaxNum := c.threadMaxNum
  pthreadAliveNum := c.threadMinNum
  pthreadBusyNum := 0
  pthreadWaitExitNum := 0
  queueFront := 0
  queueRear := 0
  queueSize := 0
  queueMaxSize := c.queueMaxSize
  shutdown := false

/-- The state in which `threadpool_create` returns: all initial threads are started, nobody
has added a task or asked for the pool's destruction. -/
def created (c : Config) (m : Memory) : State where
  pool := threadpoolCreate c m
  adders := []
  workers := List.replicate c.threadMinNum Worker.fresh
  adjust := ⟨.whileShutdown, 0, 0, 0, 0, 0⟩
  destroy := ⟨.idle, 0⟩
  accepted := []
  taken := []
  freed := []
  poolFreed := false

/-- The pool's runs. -/
def threadpool (c : Config) (m : Memory) : System State Label := System.ofStep (created c m) step

/-- The history of a run of the pool. -/
abbrev History := List (Event State Label)

/-! ## Schedules

Runs on explicit schedules are what the existence statements about runs use. -/

/-- What `calloc` would have handed out. -/
def Memory.cleared : Memory := ⟨fun _ => 0, fun _ => default⟩

/-- The `i`-th call is made and runs undisturbed to its end, in a pool with room, a slot
without leftover argument and no blocked worker. -/
def addSchedule (i function args : ℕ) : List Label :=
  .call function args :: List.replicate 10 (.add i 0)

/-- The `i`-th worker goes undisturbed from line 157 to the call of the task function. -/
def taskSchedule (i : ℕ) : List Label := List.replicate 13 (.work i)

/-- Five tasks are added before the only worker has started. -/
def backlogSchedule : List Label :=
  addSchedule 0 1 1 ++ addSchedule 1 1 2 ++ addSchedule 2 1 3 ++ addSchedule 3 1 4 ++
    addSchedule 4 1 5

theorem exists_run_of_schedule (c : Config) (m : Memory) (ls : List Label)
    (P : History → State → Bool)
    (hP : (System.exec step [] (created c m) ls).any (fun r => P r.1 r.2) = true) :
    ∃ h s, (threadpool c m).Run h s ∧ P h s = true :=
  System.exists_run_of_exec _ _ ls P hP

/-! ## Getters -/

/-- `threadpool_get_all_pthread_num`, whose critical section only reads. -/
def threadpoolGetAllPthreadNum : Option Pool → ℤ
  | some p => p.pthreadAliveNum
  | none => -1

/-- `threadpool_get_busy_pthread_num`, which reads under `lock` and not under
`thread_counter`. -/
def threadpoolGetBusyPthreadNum : Option Pool → ℤ
  | some p => p.pthreadBusyNum
  | none => -1

/-! ## What a step can do -/

/-- The state after a statement of a call, before its effect. -/
def State.setAdder (s : State) (i : ℕ) (p : Pool) (a : Adder) : State :=
  { s with pool := p, adders := s.adders.set i a }

/-- The state after a statement of a worker, before its effect. -/
def State.setWorker (s : State) (i : ℕ) (p : Pool) (w : Worker) : State :=
  { s with pool := p, workers := s.workers.set i w }

/-- The inversion of `step`: one case for each kind of step. -/
inductive Stepped (s : State) : Label → State → Prop
  | call (f x : ℕ) :
      Stepped s (.call f x) { s with adders := s.adders ++ [⟨.lock, f, x, false, 0⟩] }
  | add {i choice : ℕ} {a a' : Adder} {p : Pool} {e : Effect} {s' : State} :
      s.adders[i]? = some a → threadpoolAdd (.adder i) s.pool a = some (p, a', e) →
      (s.setAdder i p a').apply choice e = some s' → Stepped s (.add i choice) s'
  | work {i : ℕ} {w w' : Worker} {p : Pool} {e : Effect} {s' : State} :
      s.workers[i]? = some w →
      threadpoolThread (.worker i) s.taken.length s.pool w = some (p, w', e) →
      (s.setWorker i p w').apply 0 e = some s' → Stepped s (.work i) s'
  | adjust {answer : Bool} {choice : ℕ} {m : Adjust} {p : Pool} {e : Effect} {s' : State} :
      adjustThread (pthreadIsAlive s (s.pool.threads.getD s.adjust.i 0) answer)
        (tidOf s.workers.length) s.pool s.adjust = some (p, m, e) →
      { s with pool := p, adjust := m }.apply choice e = some s' →
      Stepped s (.adjust answer choice) s'
  | destroy {d : Destroy} {p : Pool} {e : Effect} {s' : State} :
      threadpoolDestroy (decide (s.adjust.pc = .returned))
        (s.isDoneTid (s.pool.threads.getD s.destroy.i 0)) s.pool s.destroy = some (p, d, e) →
      { s with pool := p, destroy := d }.apply 0 e = some s' → Stepped s .destroy s'
  | wakeAdd {i : ℕ} {a : Adder} : s.adders[i]? = some a → a.isBlocked = true →
      Stepped s (.wakeAdd i) (s.setAdder i s.pool a.wake)
  | wakeWork {i : ℕ} {w : Worker} : s.workers[i]? = some w → w.isBlocked = true →
      Stepped s (.wakeWork i) (s.setWorker i s.pool w.wake)

theorem stepped_of_step {s s' : State} {l : Label} (h : step s l = some s') : Stepped s l s' := by
  cases l with
  | call f x =>
    obtain rfl := Option.some.inj h
    exact .call f x
  | add i choice =>
    simp only [step] at h
    split at h
    · cases h
    · next a ha =>
      split at h
      · cases h
      · next p a' e hstep => exact .add ha hstep h
  | work i =>
    simp only [step] at h
    split at h
    · cases h
    · next w hw =>
      split at h
      · cases h
      · next p w' e hstep => exact .work hw hstep h
  | adjust answer choice =>
    simp only [step] at h
    split at h
    · cases h
    · next p m e hstep => exact .adjust hstep h
  | destroy =>
    simp only [step] at h
    split at h
    · cases h
    · next p d e hstep => exact .destroy hstep h
  | wakeAdd i =>
    simp only [step] at h
    split at h
    · cases h
    · next a ha =>
      split at h
      · next hb =>
        obtain rfl := Option.some.inj h
        exact .wakeAdd ha hb
      · cases h
  | wakeWork i =>
    simp only [step] at h
    split at h
    · cases h
    · next w hw =>
      split at h
      · next hb =>
        obtain rfl := Option.some.inj h
        exact .wakeWork hw hb
      · cases h

/-- The induction over the runs of the pool sees `Stepped` instead of `step`. -/
theorem stepped_of_run {c : Config} {m : Memory} {s s' : State} {l : Label}
    (h : (threadpool c m).step s l s') : Stepped s l s' := stepped_of_step h

/-! ## What an effect can do -/

/-- The tasks an effect adds to the history of accepted tasks. -/
def Effect.accepts : Effect → List Task
  | .accept t => [t]
  | _ => []

/-- The tasks an effect adds to the history of taken tasks. -/
def Effect.takes : Effect → List Task
  | .take t => [t]
  | _ => []

/-- The pointers an effect frees. -/
def Effect.frees : Effect → List ℕ
  | .free x => [x]
  | _ => []

/-- What an effect does to the worker threads. -/
inductive WorkersAfter (ws : List Worker) : Effect → List Worker → Prop
  | woken {i : ℕ} {w : Worker} : ws[i]? = some w → w.isBlocked = true →
      WorkersAfter ws .signalNotEmpty (ws.set i w.wake)
  | nobody : ws.any Worker.isBlocked = false → WorkersAfter ws .signalNotEmpty ws
  | all : WorkersAfter ws .broadcastNotEmpty (ws.map Worker.wake)
  | created : WorkersAfter ws .create (ws ++ [Worker.fresh])
  | same {e : Effect} : e ≠ .signalNotEmpty → e ≠ .broadcastNotEmpty → e ≠ .create →
      WorkersAfter ws e ws

/-- The inversion of `State.apply`. -/
structure Applied (s : State) (e : Effect) (s' : State) : Prop where
  pool : s'.pool = s.pool
  adjust : s'.adjust = s.adjust
  destroy : s'.destroy = s.destroy
  adders : s'.adders = if e = .broadcastNotFull then s.adders.map Adder.wake else s.adders
  workers : WorkersAfter s.workers e s'.workers
  accepted : s'.accepted = s.accepted ++ e.accepts
  taken : s'.taken = s.taken ++ e.takes
  freed : s'.freed = s.freed ++ e.frees
  poolFreed : s'.poolFreed = (s.poolFreed || decide (e = .freePool))

theorem workersAfter_of_signal {ws ws' : List Worker} {choice : ℕ}
    (h : pthreadCondSignal ws choice = some ws') : WorkersAfter ws .signalNotEmpty ws' := by
  unfold pthreadCondSignal at h
  split at h
  · split at h
    · next w hw =>
      split at h
      · next hb =>
        obtain rfl := Option.some.inj h
        exact .woken hw hb
      · cases h
    · cases h
  · next hnone =>
    obtain rfl := Option.some.inj h
    exact .nobody (by simpa using hnone)

theorem applied_of_apply {s s' : State} {choice : ℕ} {e : Effect}
    (h : s.apply choice e = some s') : Applied s e s' := by
  cases e with
  | signalNotEmpty =>
    obtain ⟨ws, hws, rfl⟩ := Option.map_eq_some_iff.mp h
    constructor <;> simp [Effect.accepts, Effect.takes, Effect.frees, workersAfter_of_signal hws]
  | broadcastNotEmpty =>
    obtain rfl := Option.some.inj h
    constructor <;> simp [Effect.accepts, Effect.takes, Effect.frees, WorkersAfter.all]
  | create =>
    obtain rfl := Option.some.inj h
    constructor <;> simp [Effect.accepts, Effect.takes, Effect.frees, WorkersAfter.created]
  | _ =>
    obtain rfl := Option.some.inj h
    constructor <;> simp [Effect.accepts, Effect.takes, Effect.frees, WorkersAfter.same]

theorem WorkersAfter.eq_of_quiet {ws ws' : List Worker} {e : Effect} (h : WorkersAfter ws e ws')
    (hsignal : e ≠ .signalNotEmpty) (hbroadcast : e ≠ .broadcastNotEmpty) (hcreate : e ≠ .create) :
    ws' = ws := by
  cases h with
  | same => rfl
  | woken | nobody => exact absurd rfl hsignal
  | all => exact absurd rfl hbroadcast
  | created => exact absurd rfl hcreate

/-- Seen one by one, an effect only wakes workers or adds a fresh one at the end. -/
theorem WorkersAfter.getElem? {ws ws' : List Worker} {e : Effect} (h : WorkersAfter ws e ws')
    (i : ℕ) : ws'[i]? = ws[i]? ∨ ws'[i]? = (ws[i]?).map Worker.wake ∨
      (e = .create ∧ i = ws.length ∧ ws'[i]? = some Worker.fresh) := by
  cases h with
  | @woken j w hw _ =>
    by_cases hij : j = i
    · subst hij
      right; left
      obtain ⟨hlt, hget⟩ := List.getElem?_eq_some_iff.mp hw
      simp [hlt, hget]
    · left
      simp [hij]
  | nobody => exact .inl rfl
  | all => exact .inr (.inl (by simp))
  | created =>
    by_cases hi : i = ws.length
    · exact .inr (.inr ⟨rfl, hi, by simp [hi]⟩)
    · left
      rcases Nat.lt_or_gt_of_ne hi with hlt | hgt
      · simp [List.getElem?_append_left hlt]
      · rw [List.getElem?_eq_none (by simp; omega), List.getElem?_eq_none (by omega)]
  | same => exact .inl rfl

end LinuxExercise.ThreadPool
