import LinuxExercise.Framework.System

/-!
# The thread pool: data and threads (`013threadPoll/threadpool.c`)

A pool is shared by the callers of `threadpool_add` (one `Adder` for every call), by the
worker threads running `threadpool_thread`, by the manager thread running `adjust_thread` and
by the thread that calls `threadpool_destroy`.  Each of them is a program counter over the
statements of its function together with the function's locals, and `threadpoolAdd`,
`threadpoolThread`, `adjustThread` and `threadpoolDestroy` execute one statement.  A thread
that cannot go on (the mutex is taken, it is blocked in `pthread_cond_wait`, the thread it
joins is still running) has no step.

Only what another thread could tell apart is a step of its own.  Printing is left out, and the
`pthread_exit` that follows an unlock is merged with that unlock: between the two a worker
only prints its id.

`pthread_mutex_unlock` frees the mutex whoever holds it, as the default mutex does;
`pthread_cond_wait` releases the mutex and blocks in one step and re-acquires the mutex in
another.  The `int` counters are integers that nothing wraps, and only the product of line 239 is
computed in 32 bits (`doubled`); the indices are naturals, since the code only ever adds one to
them modulo the capacity.
-/

namespace LinuxExercise.ThreadPool

/-! ## Data -/

/-- `threadpool_task_t`: a function pointer and an argument pointer, `0` being `NULL`. -/
structure Task where
  function : ℕ
  args : ℕ
  deriving DecidableEq, Repr

instance : Inhabited Task := ⟨⟨0, 0⟩⟩

/-- The threads that lock the pool's mutexes. -/
inductive Thread
  /-- The `i`-th call of `threadpool_add`. -/
  | adder (i : ℕ)
  /-- The `i`-th worker thread ever created. -/
  | worker (i : ℕ)
  /-- The manager thread. -/
  | adjust
  deriving DecidableEq, Repr

/-- `threadpool_t`, less the fields no function reads.  A mutex is its owner. -/
structure Pool where
  lock : Option Thread
  threadCounter : Option Thread
  /-- The `pthread_t` of each slot, `0` when the slot was cleared. -/
  threads : List ℕ
  taskQueue : List Task
  pthreadMinNum : ℕ
  pthreadMaxNum : ℕ
  pthreadAliveNum : ℤ
  pthreadBusyNum : ℤ
  pthreadWaitExitNum : ℤ
  queueFront : ℕ
  queueRear : ℕ
  queueSize : ℤ
  queueMaxSize : ℕ
  shutdown : Bool
  deriving Repr

/-- `DEFAULT_THREAD_NUM`: how many threads are created or retired at a time. -/
def defaultThreadNum : ℕ := 10

/-- The `pthread_t` of the `i`-th worker ever created. -/
def tidOf (i : ℕ) : ℕ := i + 1

/-- What a step does besides changing the pool and the locals of its thread. -/
inductive Effect
  | none
  /-- `pthread_cond_signal(&queue_not_empty)`. -/
  | signalNotEmpty
  /-- `pthread_cond_broadcast(&queue_not_empty)`. -/
  | broadcastNotEmpty
  /-- `pthread_cond_broadcast(&queue_not_full)`. -/
  | broadcastNotFull
  /-- A task is now counted in `queue_size`. -/
  | accept (task : Task)
  /-- A task is no longer counted in `queue_size`; the worker has its own copy. -/
  | take (task : Task)
  /-- `free(args)` of a slot's leftover argument. -/
  | free (args : ℕ)
  /-- `pthread_create` of a worker. -/
  | create
  /-- `threadpool_free(pool)`. -/
  | freePool
  deriving DecidableEq, Repr

/-! ## `threadpool_add` -/

/-- The statements of `threadpool_add` (lines 114-145). -/
inductive AddPc
  /-- Line 116, about to lock. -/
  | lock
  /-- Line 118, the loop test. -/
  | whileFull
  /-- Line 119, about to enter `pthread_cond_wait`. -/
  | wait
  /-- Blocked on `queue_not_full`. -/
  | blocked
  /-- Woken, about to re-acquire the mutex. -/
  | woken
  /-- Line 122. -/
  | ifShutdown
  /-- Line 123, the unlock of the shutdown branch. -/
  | unlockShutdown
  /-- Line 127. -/
  | ifArgs
  /-- Line 128. -/
  | freeArgs
  /-- Line 129. -/
  | nullArgs
  /-- Line 132. -/
  | storeArgs
  /-- Line 133. -/
  | storeFunction
  /-- Line 135. -/
  | moveRear
  /-- Line 136. -/
  | incSize
  /-- Line 139. -/
  | signal
  /-- Line 142. -/
  | unlock
  /-- The call has returned. -/
  | returned
  deriving DecidableEq, Repr

/-- A call of `threadpool_add`. -/
structure Adder where
  pc : AddPc
  function : ℕ
  args : ℕ
  /-- History: the call has executed the unlock of line 123. -/
  released : Bool
  /-- History: how often the call has executed `pthread_mutex_unlock(&lock)`. -/
  unlocks : ℕ
  deriving DecidableEq, Repr

/-- The pair a call offers. -/
def Adder.task (a : Adder) : Task := ⟨a.function, a.args⟩

/-- The slot a queue index refers to. -/
def Pool.slot (p : Pool) (i : ℕ) : Task := p.taskQueue.getD i default

/-- One statement of `threadpool_add`.  The branch of line 122 has no `return`: after the
unlock of line 123 control falls through to line 127. -/
def threadpoolAdd (me : Thread) (p : Pool) (a : Adder) : Option (Pool × Adder × Effect) :=
  match a.pc with
  | .lock =>
    if p.lock = none then
      some ({ p with lock := some me }, { a with pc := .whileFull }, .none)
    else none
  | .whileFull =>
    if p.shutdown = false ∧ p.queueSize = p.queueMaxSize then
      some (p, { a with pc := .wait }, .none)
    else some (p, { a with pc := .ifShutdown }, .none)
  | .wait => some ({ p with lock := none }, { a with pc := .blocked }, .none)
  | .blocked => none
  | .woken =>
    if p.lock = none then
      some ({ p with lock := some me }, { a with pc := .whileFull }, .none)
    else none
  | .ifShutdown =>
    if p.shutdown then some (p, { a with pc := .unlockShutdown }, .none)
    else some (p, { a with pc := .ifArgs }, .none)
  | .unlockShutdown =>
    some ({ p with lock := none },
      { a with pc := .ifArgs, released := true, unlocks := a.unlocks + 1 }, .none)
  | .ifArgs =>
    if (p.slot p.queueRear).args = 0 then some (p, { a with pc := .storeArgs }, .none)
    else some (p, { a with pc := .freeArgs }, .none)
  | .freeArgs => some (p, { a with pc := .nullArgs }, .free (p.slot p.queueRear).args)
  | .nullArgs =>
    some ({ p with taskQueue := p.taskQueue.modify p.queueRear fun t => { t with args := 0 } },
      { a with pc := .storeArgs }, .none)
  | .storeArgs =>
    some ({ p with taskQueue := p.taskQueue.modify p.queueRear fun t => { t with args := a.args } },
      { a with pc := .storeFunction }, .none)
  | .storeFunction =>
    some ({ p with taskQueue :=
        p.taskQueue.modify p.queueRear fun t => { t with function := a.function } },
      { a with pc := .moveRear }, .none)
  | .moveRear =>
    some ({ p with queueRear := (p.queueRear + 1) % p.queueMaxSize },
      { a with pc := .incSize }, .none)
  | .incSize =>
    some ({ p with queueSize := p.queueSize + 1 }, { a with pc := .signal }, .accept a.task)
  | .signal => some (p, { a with pc := .unlock }, .signalNotEmpty)
  | .unlock =>
    some ({ p with lock := none }, { a with pc := .returned, unlocks := a.unlocks + 1 }, .none)
  | .returned => none

/-! ## `threadpool_thread` -/

/-- The statements of `threadpool_thread` (lines 148-204). -/
inductive WorkPc
  /-- Line 157, at the top of the loop. -/
  | lock
  /-- Line 159, the loop test. -/
  | whileEmpty
  /-- Line 161, about to enter `pthread_cond_wait`. -/
  | wait
  /-- Blocked on `queue_not_empty`. -/
  | blocked
  /-- Woken, about to re-acquire the mutex. -/
  | woken
  /-- Line 163. -/
  | ifWaitExit
  /-- Line 164. -/
  | decWaitExit
  /-- Line 166. -/
  | ifAlive
  /-- Line 168. -/
  | decAlive
  /-- Lines 169-170, unlock and `pthread_exit`. -/
  | exitRetire
  /-- Line 175. -/
  | ifShutdown
  /-- Lines 176-178, unlock and `pthread_exit`. -/
  | exitShutdown
  /-- Line 182. -/
  | takeFunction
  /-- Line 183. -/
  | takeArgs
  /-- Line 185. -/
  | moveFront
  /-- Line 186. -/
  | decSize
  /-- Line 188. -/
  | broadcast
  /-- Line 191. -/
  | unlock
  /-- Line 196. -/
  | lockCounter
  /-- Line 197. -/
  | incBusy
  /-- Line 198. -/
  | unlockCounter
  /-- Line 200, about to call the task function. -/
  | call
  /-- Line 200, the task function is executing. -/
  | running
  /-- The thread has terminated. -/
  | exited
  deriving DecidableEq, Repr

/-- A worker thread. -/
structure Worker where
  pc : WorkPc
  /-- The local `task`. -/
  task : Task
  /-- History: the acceptance number of the task taken last. -/
  number : ℕ
  deriving DecidableEq, Repr

/-- A thread as `pthread_create` starts it. -/
def Worker.fresh : Worker := ⟨.lock, default, 0⟩

/-- One statement of `threadpool_thread`; `taken` tasks have been taken so far (it only feeds
the history field). -/
def threadpoolThread (me : Thread) (taken : ℕ) (p : Pool) (w : Worker) :
    Option (Pool × Worker × Effect) :=
  match w.pc with
  | .lock =>
    if p.lock = none then
      some ({ p with lock := some me }, { w with pc := .whileEmpty }, .none)
    else none
  | .whileEmpty =>
    if p.shutdown = false ∧ p.queueSize = 0 then some (p, { w with pc := .wait }, .none)
    else some (p, { w with pc := .ifShutdown }, .none)
  | .wait => some ({ p with lock := none }, { w with pc := .blocked }, .none)
  | .blocked => none
  | .woken =>
    if p.lock = none then
      some ({ p with lock := some me }, { w with pc := .ifWaitExit }, .none)
    else none
  | .ifWaitExit =>
    if 0 < p.pthreadWaitExitNum then some (p, { w with pc := .decWaitExit }, .none)
    else some (p, { w with pc := .whileEmpty }, .none)
  | .decWaitExit =>
    some ({ p with pthreadWaitExitNum := p.pthreadWaitExitNum - 1 },
      { w with pc := .ifAlive }, .none)
  | .ifAlive =>
    if (p.pthreadMinNum : ℤ) < p.pthreadAliveNum then some (p, { w with pc := .decAlive }, .none)
    else some (p, { w with pc := .whileEmpty }, .none)
  | .decAlive =>
    some ({ p with pthreadAliveNum := p.pthreadAliveNum - 1 },
      { w with pc := .exitRetire }, .none)
  | .exitRetire => some ({ p with lock := none }, { w with pc := .exited }, .none)
  | .ifShutdown =>
    if p.shutdown then some (p, { w with pc := .exitShutdown }, .none)
    else some (p, { w with pc := .takeFunction }, .none)
  | .exitShutdown => some ({ p with lock := none }, { w with pc := .exited }, .none)
  | .takeFunction =>
    some (p, { w with
      pc := .takeArgs, task := { w.task with function := (p.slot p.queueFront).function } }, .none)
  | .takeArgs =>
    some (p, { w with
      pc := .moveFront, task := { w.task with args := (p.slot p.queueFront).args } }, .none)
  | .moveFront =>
    some ({ p with queueFront := (p.queueFront + 1) % p.queueMaxSize },
      { w with pc := .decSize }, .none)
  | .decSize =>
    some ({ p with queueSize := p.queueSize - 1 },
      { w with pc := .broadcast, number := taken }, .take w.task)
  | .broadcast => some (p, { w with pc := .unlock }, .broadcastNotFull)
  | .unlock => some ({ p with lock := none }, { w with pc := .lockCounter }, .none)
  | .lockCounter =>
    if p.threadCounter = none then
      some ({ p with threadCounter := some me }, { w with pc := .incBusy }, .none)
    else none
  | .incBusy =>
    some ({ p with pthreadBusyNum := p.pthreadBusyNum + 1 }, { w with pc := .unlockCounter }, .none)
  | .unlockCounter => some ({ p with threadCounter := none }, { w with pc := .call }, .none)
  | .call => some (p, { w with pc := .running }, .none)
  -- The task function returns and the loop starts over; nothing lowers `pthread_busy_num`.
  | .running => some (p, { w with pc := .lock }, .none)
  | .exited => none

/-! ## `adjust_thread` -/

/-- The statements of `adjust_thread` (lines 207-251). -/
inductive AdjustPc
  /-- Line 210, which reads `shutdown` without the mutex. -/
  | whileShutdown
  /-- Line 212. -/
  | lockSnapshot
  /-- Line 213. -/
  | readSize
  /-- Line 214. -/
  | readAlive
  /-- Line 215. -/
  | unlockSnapshot
  /-- Line 218. -/
  | ifBacklog
  /-- Line 219. -/
  | lockGrow
  /-- Line 222, the loop test. -/
  | forSlot
  /-- Line 224. -/
  | ifSlot
  /-- Lines 225-227. -/
  | create
  /-- Line 230. -/
  | unlockGrow
  /-- Line 234. -/
  | lockCounter
  /-- Line 235. -/
  | readBusy
  /-- Line 236. -/
  | unlockCounter
  /-- Line 239. -/
  | ifIdle
  /-- Line 241. -/
  | lockRetire
  /-- Line 242. -/
  | setWaitExit
  /-- Line 243. -/
  | unlockRetire
  /-- Lines 245-246, the signalling loop. -/
  | signal
  /-- Line 248. -/
  | sleep
  /-- The thread has terminated. -/
  | returned
  deriving DecidableEq, Repr

/-- The manager thread with the locals of `adjust_thread`; `pthreadAliveNum` and
`pthreadBusyNum` are the locals that shadow the pool's fields. -/
structure Adjust where
  pc : AdjustPc
  i : ℕ
  queueSize : ℤ
  pthreadAliveNum : ℤ
  pthreadAddNum : ℕ
  pthreadBusyNum : ℤ
  deriving DecidableEq, Repr

/-- The `int` `pthread_busy_num*2`.  Where it does not fit, C leaves it undefined, and this is what
the machine computes. -/
def doubled (pthreadBusyNum : ℤ) : ℤ := (pthreadBusyNum * 2).bmod (2 ^ 32)

/-- One statement of `adjust_thread`.  `alive` is what `pthread_is_alive(threads[i])` answers
and `tid` is the id `pthread_create` stores. -/
def adjustThread (alive : Bool) (tid : ℕ) (p : Pool) (m : Adjust) :
    Option (Pool × Adjust × Effect) :=
  match m.pc with
  | .whileShutdown =>
    if p.shutdown then some (p, { m with pc := .returned }, .none)
    else some (p, { m with pc := .lockSnapshot }, .none)
  | .lockSnapshot =>
    if p.lock = none then
      some ({ p with lock := some .adjust }, { m with pc := .readSize }, .none)
    else none
  | .readSize => some (p, { m with pc := .readAlive, queueSize := p.queueSize }, .none)
  | .readAlive =>
    some (p, { m with pc := .unlockSnapshot, pthreadAliveNum := p.pthreadAliveNum }, .none)
  | .unlockSnapshot => some ({ p with lock := none }, { m with pc := .ifBacklog }, .none)
  | .ifBacklog =>
    if 3 + m.pthreadAliveNum < m.queueSize ∧ m.pthreadAliveNum + 1 < p.pthreadMaxNum then
      some (p, { m with pc := .lockGrow }, .none)
    else some (p, { m with pc := .lockCounter }, .none)
  | .lockGrow =>
    if p.lock = none then
      some ({ p with lock := some .adjust },
        { m with pc := .forSlot, i := 0, pthreadAddNum := 0 }, .none)
    else none
  | .forSlot =>
    if m.i < p.pthreadMaxNum ∧ m.pthreadAddNum < defaultThreadNum ∧
        p.pthreadAliveNum < p.pthreadMaxNum then
      some (p, { m with pc := .ifSlot }, .none)
    else some (p, { m with pc := .unlockGrow }, .none)
  | .ifSlot =>
    if p.threads.getD m.i 0 = 0 ∨ alive = false then some (p, { m with pc := .create }, .none)
    else some (p, { m with pc := .forSlot, i := m.i + 1 }, .none)
  -- The increment of line 227 is on the local, not on the pool's field.
  | .create =>
    some ({ p with threads := p.threads.set m.i tid },
      { m with pc := .forSlot, i := m.i + 1, pthreadAddNum := m.pthreadAddNum + 1,
               pthreadAliveNum := m.pthreadAliveNum + 1 }, .create)
  | .unlockGrow => some ({ p with lock := none }, { m with pc := .lockCounter }, .none)
  | .lockCounter =>
    if p.threadCounter = none then
      some ({ p with threadCounter := some .adjust }, { m with pc := .readBusy }, .none)
    else none
  | .readBusy =>
    some (p, { m with pc := .unlockCounter, pthreadBusyNum := p.pthreadBusyNum }, .none)
  | .unlockCounter => some ({ p with threadCounter := none }, { m with pc := .ifIdle }, .none)
  | .ifIdle =>
    if doubled m.pthreadBusyNum < m.pthreadAliveNum ∧ (p.pthreadMinNum : ℤ) < m.pthreadAliveNum then
      some (p, { m with pc := .lockRetire }, .none)
    else some (p, { m with pc := .sleep }, .none)
  | .lockRetire =>
    if p.lock = none then
      some ({ p with lock := some .adjust }, { m with pc := .setWaitExit }, .none)
    else none
  | .setWaitExit =>
    some ({ p with pthreadWaitExitNum := defaultThreadNum }, { m with pc := .unlockRetire }, .none)
  | .unlockRetire => some ({ p with lock := none }, { m with pc := .signal, i := 0 }, .none)
  | .signal =>
    if m.i < defaultThreadNum then some (p, { m with i := m.i + 1 }, .signalNotEmpty)
    else some (p, { m with pc := .sleep }, .none)
  | .sleep => some (p, { m with pc := .whileShutdown }, .none)
  | .returned => none

/-! ## `threadpool_destroy` -/

/-- The statements of `threadpool_destroy` (lines 254-271). -/
inductive DestroyPc
  /-- Not called yet. -/
  | idle
  /-- Line 259. -/
  | setShutdown
  /-- Line 261. -/
  | joinAdjust
  /-- Line 263. -/
  | broadcast
  /-- Lines 265-266. -/
  | joinWorkers
  /-- Line 269. -/
  | free
  /-- The call has returned. -/
  | returned
  deriving DecidableEq, Repr

/-- The call of `threadpool_destroy`. -/
structure Destroy where
  pc : DestroyPc
  i : ℕ
  deriving DecidableEq, Repr

/-- One statement of `threadpool_destroy`.  `managerDone` tells whether the manager thread has
terminated, `workerDone` whether the thread in `threads[i]` has. -/
def threadpoolDestroy (managerDone workerDone : Bool) (p : Pool) (d : Destroy) :
    Option (Pool × Destroy × Effect) :=
  match d.pc with
  | .idle => some (p, { d with pc := .setShutdown }, .none)
  | .setShutdown => some ({ p with shutdown := true }, { d with pc := .joinAdjust }, .none)
  | .joinAdjust => if managerDone then some (p, { d with pc := .broadcast }, .none) else none
  | .broadcast => some (p, { d with pc := .joinWorkers, i := 0 }, .broadcastNotEmpty)
  | .joinWorkers =>
    if d.i < p.pthreadMinNum then
      if workerDone then some (p, { d with i := d.i + 1 }, .none) else none
    else some (p, { d with pc := .free }, .none)
  | .free => some (p, { d with pc := .returned }, .freePool)
  | .returned => none

end LinuxExercise.ThreadPool
