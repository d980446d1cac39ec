import LinuxExercise.ThreadPool.State

/-!
# What `threadpool_create` cleans up when it fails

The body of `threadpool_create` breaks out at the first call that fails and hands the half-built
pool to `threadpool_free`.  That function tells what has been acquired from two fields of the
structure: it frees `task_queue` and `threads` if they are not `NULL`, and takes the latter as
evidence that all four mutexes and condition variables have been initialised.  Neither is right
on every path.  `task_queue` has not been written when the allocation of `threads` fails, and
`threads` is set long before the first `pthread_mutex_init`.

Here the pool is the structure as it lies in memory, with addresses for pointers, and a call is
recorded for each `malloc`, `free`, initialisation and destruction.  The state that a successful
call leaves behind is the one of `ThreadPool.created` (`threadpoolCreate_succeeds`).
-/

namespace LinuxExercise.ThreadPool.Create

/-- What lines 88-91 initialise. -/
inductive Sync
  | lock
  | threadCounter
  | queueNotFull
  | queueNotEmpty
  deriving DecidableEq, Repr

/-- The calls that acquire and release something. -/
inductive Call
  /-- `malloc` returns this address, `0` being `NULL`. -/
  | malloc (p : ℕ)
  | free (p : ℕ)
  /-- `pthread_mutex_init` or `pthread_cond_init` returns `result`, `0` for success. -/
  | init (x : Sync) (result : ℤ)
  | destroy (x : Sync)
  deriving DecidableEq, Repr

/-- `threadpool_t` in memory, less what the `pthread` functions keep there. -/
structure Block where
  threads : ℕ
  taskQueue : ℕ
  pthreadMinNum : ℤ
  pthreadMaxNum : ℤ
  pthreadAliveNum : ℤ
  pthreadBusyNum : ℤ
  pthreadWaitExitNum : ℤ
  queueFront : ℤ
  queueRear : ℤ
  queueSize : ℤ
  queueMaxSize : ℤ
  shutdown : Bool
  deriving DecidableEq, Repr

/-- What the calls return, and what the first block contains when `malloc` returns it. -/
structure Env where
  pool : ℕ
  threads : ℕ
  taskQueue : ℕ
  init : Sync → ℤ
  memory : Block

/-- Some call fails. -/
def Env.Fails (env : Env) : Prop :=
  env.pool = 0 ∨ env.threads = 0 ∨ env.taskQueue = 0 ∨ ∃ x, env.init x ≠ 0

/-! ## The code -/

/-- `threadpool_free` (lines 273-292) of the pool at address `pool`. -/
def threadpoolFree (pool : ℕ) (b : Block) : List Call :=
  if pool = 0 then []
  else
    (if b.taskQueue = 0 then [] else [.free b.taskQueue]) ++
      (if b.threads = 0 then []
        else [.free b.threads, .destroy .lock, .destroy .threadCounter, .destroy .queueNotEmpty,
          .destroy .queueNotFull]) ++
      [.free pool]

/-- The condition of lines 88-91: the calls it makes, and whether none of them failed. -/
def initSyncs (init : Sync → ℤ) : List Sync → List Call × Bool
  | [] => ([], true)
  | x :: xs =>
    if init x = 0 then (.init x 0 :: (initSyncs init xs).1, (initSyncs init xs).2)
    else ([.init x (init x)], false)

/-- `threadpool_create` (lines 53-111) up to the start of the threads: what it returns, and the
calls it makes.  Each failure leaves the `do` block and comes to line 109. -/
def threadpoolCreate (env : Env) (threadMinNum threadMaxNum queueMaxSize : ℤ) :
    Option (ℕ × Block) × List Call :=
  if env.pool = 0 then (none, .malloc 0 :: threadpoolFree 0 env.memory)
  else
    let b : Block := { env.memory with
      pthreadMinNum := threadMinNum
      pthreadMaxNum := threadMaxNum
      pthreadAliveNum := threadMinNum
      pthreadBusyNum := 0
      pthreadWaitExitNum := 0
      queueFront := 0
      queueRear := 0
      queueSize := 0
      queueMaxSize := queueMaxSize
      shutdown := false
      threads := env.threads }
    if env.threads = 0 then
      (none, [.malloc env.pool, .malloc 0] ++ threadpoolFree env.pool b)
    else
      let b : Block := { b with taskQueue := env.taskQueue }
      let mallocs := [.malloc env.pool, .malloc env.threads, .malloc env.taskQueue]
      if env.taskQueue = 0 then (none, mallocs ++ threadpoolFree env.pool b)
      else
        let inits := initSyncs env.init [.lock, .threadCounter, .queueNotFull, .queueNotEmpty]
        if inits.2 = false then (none, mallocs ++ inits.1 ++ threadpoolFree env.pool b)
        else (some (env.pool, b), mallocs ++ inits.1)

/-! ## What a failure should leave behind -/

/-- `threadpool_create` has returned `NULL` and has given back what it acquired, and nothing
else. -/
structure FailureAtomic (r : Option (ℕ × Block) × List Call) : Prop where
  null : r.1 = none
  freedOnce : ∀ p, p ≠ 0 → .malloc p ∈ r.2 → r.2.count (.free p) = 1
  allocated : ∀ p, .free p ∈ r.2 → p ≠ 0 ∧ .malloc p ∈ r.2
  destroyed : ∀ x, r.2.count (.destroy x) = if .init x 0 ∈ r.2 then 1 else 0

/-! ## The initialisations -/

/-- The condition of lines 88-91 initialises one object after the other, until one fails. -/
theorem initSyncs_spec (init : Sync → ℤ) (xs : List Sync) :
    (∀ x, .init x 0 ∈ (initSyncs init xs).1 → x ∈ xs ∧ init x = 0) ∧
      ((initSyncs init xs).2 = true ↔ ∀ x ∈ xs, init x = 0) ∧
      ∀ c ∈ (initSyncs init xs).1, ∃ x result, c = .init x result := by
  induction xs with
  | nil => simp [initSyncs]
  | cons y ys ih =>
    obtain ⟨hinit, hall, hcalls⟩ := ih
    unfold initSyncs
    split
    · next hy =>
      refine ⟨fun x hx => ?_, by simp [hall, hy], fun c hc => ?_⟩
      · rcases List.mem_cons.mp hx with heq | hmem
        · obtain rfl : x = y := by simpa using heq
          exact ⟨List.mem_cons_self, hy⟩
        · exact ⟨List.mem_cons_of_mem y (hinit x hmem).1, (hinit x hmem).2⟩
      · rcases List.mem_cons.mp hc with rfl | hmem
        · exact ⟨y, 0, rfl⟩
        · exact hcalls c hmem
    · next hy =>
      refine ⟨fun x hx => ?_, by simp [hy], by simp⟩
      obtain ⟨rfl, hzero⟩ : x = y ∧ 0 = init y := by simpa using hx
      exact absurd hzero.symm hy

/-! ## The failure points -/

theorem failureAtomic_of_no_pool (b : Block) :
    FailureAtomic (none, .malloc 0 :: threadpoolFree 0 b) where
  null := rfl
  freedOnce p hp hmalloc := absurd (by simpa [threadpoolFree] using hmalloc) hp
  allocated p hfree := by simp [threadpoolFree] at hfree
  destroyed x := by simp [threadpoolFree]

/-- Without `threads` the clean-up goes by `task_queue`, which has not been written. -/
theorem failureAtomic_no_threads_iff {pool : ℕ} {b : Block} (hpool : pool ≠ 0)
    (hthreads : b.threads = 0) :
    FailureAtomic (none, [.malloc pool, .malloc 0] ++ threadpoolFree pool b) ↔
      b.taskQueue = 0 := by
  by_cases hqueue : b.taskQueue = 0
  · have hfree : threadpoolFree pool b = [.free pool] := by
      simp [threadpoolFree, hpool, hthreads, hqueue]
    rw [hfree]
    refine iff_of_true ⟨rfl, fun p hp hmalloc => ?_, fun p hmem => ?_, by simp⟩ hqueue
    · obtain rfl : p = pool := by simpa [hp] using hmalloc
      simp
    · obtain rfl : p = pool := by simpa using hmem
      exact ⟨hpool, by simp⟩
  · have hfree : threadpoolFree pool b = [.free b.taskQueue, .free pool] := by
      simp [threadpoolFree, hpool, hthreads, hqueue]
    rw [hfree]
    refine iff_of_false (fun hatomic => ?_) hqueue
    have hmalloc := (hatomic.allocated b.taskQueue (by simp)).2
    have hsame : b.taskQueue = pool := by simpa [hqueue] using hmalloc
    -- What was left in the block is its own address, which is then freed twice.
    have htwice := hatomic.freedOnce pool hpool (by simp)
    rw [hsame] at htwice
    simp at htwice

/-- With `threads` set, `threadpool_free` destroys all four objects, initialised or not. -/
theorem not_failureAtomic_of_threads {calls : List Call} {pool : ℕ} {b : Block} {x : Sync}
    (hpool : pool ≠ 0) (hthreads : b.threads ≠ 0) (hinit : .init x 0 ∉ calls) :
    ¬ FailureAtomic (none, calls ++ threadpoolFree pool b) := by
  intro hatomic
  have hdestroy : .destroy x ∈ threadpoolFree pool b := by
    cases x <;> simp [threadpoolFree, hpool, hthreads]
  have hfree : .init x 0 ∉ threadpoolFree pool b := by
    unfold threadpoolFree
    split_ifs <;> simp
  have hcount := hatomic.destroyed x
  rw [if_neg (by simp [hinit, hfree])] at hcount
  exact List.count_eq_zero.mp hcount (List.mem_append_right calls hdestroy)

/-- **Which failures are cleaned up.**  A failing `threadpool_create` gives back what it acquired
and touches nothing else, if and only if it is the allocation of the pool that fails, or that of
`threads` with a zero where `task_queue` is to be. -/
theorem failure_atomic_iff (env : Env) (threadMinNum threadMaxNum queueMaxSize : ℤ)
    (hfails : env.Fails) :
    FailureAtomic (threadpoolCreate env threadMinNum threadMaxNum queueMaxSize) ↔
      env.pool = 0 ∨ env.threads = 0 ∧ env.memory.taskQueue = 0 := by
  unfold threadpoolCreate
  by_cases hpool : env.pool = 0
  · rw [if_pos hpool]
    exact iff_of_true (failureAtomic_of_no_pool _) (.inl hpool)
  rw [if_neg hpool, or_iff_right hpool]
  simp only
  by_cases hthreads : env.threads = 0
  · rw [if_pos hthreads, and_iff_right hthreads]
    exact failureAtomic_no_threads_iff hpool hthreads
  rw [if_neg hthreads]
  refine iff_of_false ?_ fun hzero => hthreads hzero.1
  by_cases hqueue : env.taskQueue = 0
  · rw [if_pos hqueue]
    exact not_failureAtomic_of_threads (x := .lock) hpool hthreads (by simp)
  rw [if_neg hqueue]
  obtain ⟨hinit, hall, -⟩ :=
    initSyncs_spec env.init [.lock, .threadCounter, .queueNotFull, .queueNotEmpty]
  obtain ⟨x, hx⟩ : ∃ x, env.init x ≠ 0 := by
    rcases hfails with hzero | hzero | hzero | hsync
    · exact absurd hzero hpool
    · exact absurd hzero hthreads
    · exact absurd hzero hqueue
    · exact hsync
  have hsome : (initSyncs env.init
      [.lock, .threadCounter, .queueNotFull, .queueNotEmpty]).2 = false := by
    rw [← Bool.not_eq_true, hall]
    exact fun hzero => hx (hzero x (by cases x <;> simp))
  rw [if_pos hsome]
  refine not_failureAtomic_of_threads (x := x) hpool hthreads fun hmem => ?_
  rcases List.mem_append.mp hmem with hmalloc | hmem
  · simp at hmalloc
  · exact hx (hinit x hmem).2

/-- Memory that `malloc` hands out cleared. -/
def cleared : Block := ⟨0, 0, 0, 0, 0, 0, 0, 0, 0, 0, 0, false⟩

/-- The allocation of `threads` fails in cleared memory. -/
theorem failure_atomic_cleared :
    FailureAtomic (threadpoolCreate ⟨4096, 0, 0, fun _ => 0, cleared⟩ 3 10 10) :=
  (failure_atomic_iff _ 3 10 10 (.inr (.inl rfl))).2 (.inr ⟨rfl, rfl⟩)

/-- The allocation of `threads` fails, and whatever is in the block where `task_queue` is to be is
passed to `free`. -/
theorem frees_garbage : ¬ ∀ (env : Env) (threadMinNum threadMaxNum queueMaxSize : ℤ),
    env.Fails → FailureAtomic (threadpoolCreate env threadMinNum threadMaxNum queueMaxSize) := by
  intro hclaim
  have hatomic := hclaim ⟨4096, 0, 0, fun _ => 0, { cleared with taskQueue := 99 }⟩ 3 10 10
    (.inr (.inl rfl))
  have hmalloc := (hatomic.allocated 99 (by decide)).2
  exact absurd hmalloc (by decide)

/-! ## Success -/

/-- The structure in memory has the values of the pool. -/
structure Block.Represents (b : Block) (p : Pool) : Prop where
  pthreadMinNum : b.pthreadMinNum = p.pthreadMinNum
  pthreadMaxNum : b.pthreadMaxNum = p.pthreadMaxNum
  pthreadAliveNum : b.pthreadAliveNum = p.pthreadAliveNum
  pthreadBusyNum : b.pthreadBusyNum = p.pthreadBusyNum
  pthreadWaitExitNum : b.pthreadWaitExitNum = p.pthreadWaitExitNum
  queueFront : b.queueFront = p.queueFront
  queueRear : b.queueRear = p.queueRear
  queueSize : b.queueSize = p.queueSize
  queueMaxSize : b.queueMaxSize = p.queueMaxSize
  shutdown : b.shutdown = p.shutdown

/-- When no call fails, the pool is the one that the runs of the thread pool start with, and
nothing is released. -/
theorem threadpoolCreate_succeeds (env : Env) (c : Config) (m : Memory) (hok : ¬ env.Fails) :
    ∃ b, (threadpoolCreate env c.threadMinNum c.threadMaxNum c.queueMaxSize).1 =
        some (env.pool, b) ∧ b.threads = env.threads ∧ b.taskQueue = env.taskQueue ∧
      b.Represents (ThreadPool.threadpoolCreate c m) ∧
      ∀ call ∈ (threadpoolCreate env c.threadMinNum c.threadMaxNum c.queueMaxSize).2,
        (∃ p, call = .malloc p) ∨ ∃ x result, call = .init x result := by
  simp only [Env.Fails, not_or, not_exists, not_not] at hok
  obtain ⟨hpool, hthreads, hqueue, hinit⟩ := hok
  obtain ⟨-, hall, hcalls⟩ :=
    initSyncs_spec env.init [.lock, .threadCounter, .queueNotFull, .queueNotEmpty]
  have hdone := hall.2 fun x _ => hinit x
  unfold threadpoolCreate
  simp only [if_neg hpool, if_neg hthreads, if_neg hqueue, hdone, Bool.true_eq_false, if_false]
  refine ⟨_, rfl, rfl, rfl, ⟨rfl, rfl, rfl, rfl, rfl, rfl, rfl, rfl, rfl, rfl⟩, ?_⟩
  intro call hcall
  rcases List.mem_append.mp hcall with hmalloc | hmem
  · left
    simp only [List.mem_cons, List.not_mem_nil, or_false] at hmalloc
    rcases hmalloc with rfl | rfl | rfl <;> exact ⟨_, rfl⟩
  · exact .inr (hcalls call hmem)

end LinuxExercise.ThreadPool.Create
