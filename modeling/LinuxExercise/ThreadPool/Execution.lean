import LinuxExercise.ThreadPool.Counters
import LinuxExercise.ThreadPool.Queue

/-!
# Every task is executed once

A task that a worker has counted out of `queue_size` has the number of its place in
`State.taken`.  The history says when its function was called (`startedTask`) and when it
returned (`returnedNumber`), the workers say who carries it before the call
(`Worker.carries`) and who is executing it (`Worker.runs`).

Two ledgers tie the two together (`started_ledger`, `returned_ledger`), and a third one says for
each worker that what it has taken is what it has called and what it still carries
(`taker_ledger`).  They hold of every run, through shutdown and after a call has executed line
123, because they are about the worker's own copy of the task; that the copy is the one accepted
under the same number is the queue's part, and true until a call executes line 123.
-/

namespace LinuxExercise.ThreadPool

/-! ## What the history says about the tasks -/

/-- The task whose function the step calls at line 200, with its number. -/
def startedTask (e : Event State Label) : Option (ℕ × Task) :=
  match e.label with
  | .work i => (e.pre.workers[i]?).bind fun w =>
    if w.pc = .call then some (w.number, w.task) else none
  | _ => none

/-- The number of the task whose function returns in the step. -/
def returnedNumber (e : Event State Label) : Option ℕ :=
  match e.label with
  | .work i => (e.pre.workers[i]?).bind fun w => if w.pc = .running then some w.number else none
  | _ => none

/-- The tasks whose functions have been called, in the order of the calls. -/
def startedTasks (h : History) : List (ℕ × Task) := h.filterMap startedTask

/-- The numbers of the tasks whose functions have returned, in the order of the returns. -/
def returnedNumbers (h : History) : List ℕ := h.filterMap returnedNumber

/-- The worker has taken a task and has not called its function yet. -/
def Worker.isCarrying (w : Worker) : Bool :=
  match w.pc with
  | .broadcast | .unlock | .lockCounter | .incBusy | .unlockCounter | .call => true
  | _ => false

/-- The worker has taken task `k` and has not called its function yet. -/
def Worker.carries (k : ℕ) (w : Worker) : Bool := w.isCarrying && decide (w.number = k)

/-- The worker is inside the function of task `k`. -/
def Worker.runs (k : ℕ) (w : Worker) : Bool := decide (w.pc = .running ∧ w.number = k)

/-- How often task `k` has been called. -/
def startCount (h : History) (k : ℕ) : ℕ := ((startedTasks h).map Prod.fst).count k

/-- How often task `k` has returned. -/
def returnCount (h : History) (k : ℕ) : ℕ := (returnedNumbers h).count k

/-- How many workers carry task `k` to its call. -/
def State.carriers (s : State) (k : ℕ) : ℕ := s.workers.countP (Worker.carries k)

/-- How many workers are inside the function of task `k`. -/
def State.runners (s : State) (k : ℕ) : ℕ := s.workers.countP (Worker.runs k)

/-! ## What a statement of a worker does to its task -/

@[simp] theorem Worker.wake_number (w : Worker) : w.wake.number = w.number := by
  unfold Worker.wake
  split <;> rfl

@[simp] theorem Worker.wake_isCarrying (w : Worker) : w.wake.isCarrying = w.isCarrying := by
  by_cases h : w.pc = .blocked
  · simp [Worker.wake, Worker.isCarrying, h]
  · rw [Worker.wake_eq_self h]

@[simp] theorem Worker.wake_carries (k : ℕ) (w : Worker) : w.wake.carries k = w.carries k := by
  simp [Worker.carries]

@[simp] theorem Worker.wake_runs (k : ℕ) (w : Worker) : w.wake.runs k = w.runs k := by
  by_cases h : w.pc = .blocked
  · simp [Worker.wake, Worker.runs, h]
  · rw [Worker.wake_eq_self h]

/-- A worker carries what it takes until it calls it. -/
theorem threadpoolThread_carries {me : Thread} {n k : ℕ} {p p' : Pool} {w w' : Worker}
    {e : Effect} (h : threadpoolThread me n p w = some (p', w', e)) :
    (if w'.carries k then 1 else 0) + (if w.pc = .call ∧ w.number = k then 1 else 0) =
      (if w.carries k then 1 else 0) + if n = k then e.takes.length else 0 := by
  obtain ⟨pc, task, number⟩ := w
  cases pc <;> simp only [threadpoolThread] at h
  all_goals try split at h
  all_goals cases h
  all_goals simp [Worker.carries, Worker.isCarrying, Effect.takes]

/-- A worker executes what it calls until it returns. -/
theorem threadpoolThread_runs {me : Thread} {n k : ℕ} {p p' : Pool} {w w' : Worker}
    {e : Effect} (h : threadpoolThread me n p w = some (p', w', e)) :
    (if w'.runs k then 1 else 0) + (if w.pc = .running ∧ w.number = k then 1 else 0) =
      (if w.runs k then 1 else 0) + if w.pc = .call ∧ w.number = k then 1 else 0 := by
  obtain ⟨pc, task, number⟩ := w
  cases pc <;> simp only [threadpoolThread] at h
  all_goals try split at h
  all_goals cases h
  all_goals simp [Worker.runs]

theorem Effect.takes_length_le (e : Effect) : e.takes.length ≤ 1 := by
  cases e <;> simp [Effect.takes]

/-- A step of a worker counts out what its statement takes. -/
theorem Stepped.taken_of_work {s s' : State} {i : ℕ} {w v : Worker} {e : Effect}
    (h : Stepped s (.work i) s') (hw : s.workers[i]? = some w)
    (hwork : threadpoolThread (.worker i) s.taken.length s.pool w = some (s'.pool, v, e)) :
    s'.taken = s.taken ++ e.takes := by
  cases h with
  | work hw₁ hwork₁ happ =>
    obtain rfl := Option.some.inj (hw.symm.trans hw₁)
    have hap := applied_of_apply happ
    rw [hwork] at hwork₁
    obtain ⟨-, -, rfl⟩ := by simpa using hwork₁
    exact hap.taken

/-- The other steps count no task out. -/
theorem Stepped.taken_of_other {s s' : State} {l : Label} (h : Stepped s l s')
    (hl : ∀ i, l ≠ .work i) : s'.taken = s.taken := by
  cases h with
  | call | wakeAdd | wakeWork => rfl
  | add _ hadd happ =>
    rw [(applied_of_apply happ).taken, (threadpoolAdd_effect hadd).2.2.2.2, List.append_nil]
    rfl
  | work => exact absurd rfl (hl _)
  | adjust hadj happ =>
    rw [(applied_of_apply happ).taken]
    rcases adjustThread_effect hadj with rfl | rfl | rfl <;> exact List.append_nil _
  | destroy hdes happ =>
    rw [(applied_of_apply happ).taken]
    rcases threadpoolDestroy_effect hdes with rfl | rfl | rfl <;> exact List.append_nil _

/-! ## The two ledgers -/

@[simp] theorem startedTask_other {s s' : State} {l : Label} (hl : ∀ i, l ≠ .work i) :
    startedTask ⟨s, l, s'⟩ = none := by
  cases l <;> first | rfl | exact absurd rfl (hl _)

@[simp] theorem returnedNumber_other {s s' : State} {l : Label} (hl : ∀ i, l ≠ .work i) :
    returnedNumber ⟨s, l, s'⟩ = none := by
  cases l <;> first | rfl | exact absurd rfl (hl _)

theorem startedTask_work {s s' : State} {i : ℕ} {w : Worker} (hw : s.workers[i]? = some w) :
    startedTask ⟨s, .work i, s'⟩ = if w.pc = .call then some (w.number, w.task) else none := by
  simp [startedTask, hw]

theorem returnedNumber_work {s s' : State} {i : ℕ} {w : Worker} (hw : s.workers[i]? = some w) :
    returnedNumber ⟨s, .work i, s'⟩ = if w.pc = .running then some w.number else none := by
  simp [returnedNumber, hw]

theorem startCount_snoc (h : History) (e : Event State Label) (k : ℕ) :
    startCount (h ++ [e]) k =
      startCount h k + if (startedTask e).map Prod.fst = some k then 1 else 0 := by
  unfold startCount startedTasks
  rw [List.filterMap_append, List.map_append, List.count_append]
  cases he : startedTask e with
  | none => simp [he]
  | some t => simp [he, List.count_singleton]

theorem returnCount_snoc (h : History) (e : Event State Label) (k : ℕ) :
    returnCount (h ++ [e]) k = returnCount h k + if returnedNumber e = some k then 1 else 0 := by
  unfold returnCount returnedNumbers
  rw [List.filterMap_append, List.count_append]
  cases he : returnedNumber e with
  | none => simp [he]
  | some t => simp [he, List.count_singleton]

/-- A task that has been counted out has been called once or is carried by one worker. -/
theorem started_ledger {c : Config} {m : Memory} {h : History} {s : State}
    (hrun : (threadpool c m).Run h s) (k : ℕ) :
    startCount h k + s.carriers k = if k < s.taken.length then 1 else 0 := by
  refine hrun.ledger
    (J := fun h s => startCount h k + s.carriers k = if k < s.taken.length then 1 else 0) ?_ ?_
  · rintro s rfl
    simp [startCount, startedTasks, State.carriers, created, List.countP_replicate, Worker.fresh,
      Worker.carries, Worker.isCarrying]
  · intro h s l s' _ hstep ih
    have hstepped := stepped_of_run hstep
    rw [startCount_snoc]
    rcases hstepped.countP (q := Worker.carries k) (Worker.wake_carries k) with
      ⟨i, w, v, e, rfl, hw, hwork, hcount⟩ | ⟨hl, hcount⟩
    · have hcarry := threadpoolThread_carries (k := k) hwork
      have htakes := e.takes_length_le
      have hlen : s'.taken.length = s.taken.length + e.takes.length := by
        rw [hstepped.taken_of_work hw hwork, List.length_append]
      have hstart : ((startedTask ⟨s, .work i, s'⟩).map Prod.fst = some k) ↔
          (w.pc = .call ∧ w.number = k) := by
        rw [startedTask_work hw]
        split <;> simp [*]
      simp only [State.carriers, hstart] at ih ⊢
      rw [hlen]
      generalize (if w.pc = .call ∧ w.number = k then 1 else 0) = called at hcarry ⊢
      by_cases hk : s.taken.length = k
      · rw [if_pos hk] at hcarry
        rw [if_neg (by omega)] at ih
        split <;> omega
      · rw [if_neg hk] at hcarry
        split at ih <;> split <;> omega
    · have hfresh : Worker.carries k .fresh = false := rfl
      rw [hstepped.taken_of_other hl, ← ih, startedTask_other hl]
      simp [State.carriers, hcount, hfresh]

/-- A task that has been called has returned once or is being executed by one worker. -/
theorem returned_ledger {c : Config} {m : Memory} {h : History} {s : State}
    (hrun : (threadpool c m).Run h s) (k : ℕ) :
    returnCount h k + s.runners k = startCount h k := by
  refine hrun.ledger
    (J := fun h s => returnCount h k + s.runners k = startCount h k) ?_ ?_
  · rintro s rfl
    simp [startCount, startedTasks, returnCount, returnedNumbers, State.runners, created,
      List.countP_replicate, Worker.fresh, Worker.runs]
  · intro h s l s' _ hstep ih
    have hstepped := stepped_of_run hstep
    rw [startCount_snoc, returnCount_snoc]
    rcases hstepped.countP (q := Worker.runs k) (Worker.wake_runs k) with
      ⟨i, w, v, e, rfl, hw, hwork, hcount⟩ | ⟨hl, hcount⟩
    · have hruns := threadpoolThread_runs (k := k) hwork
      have hstart : ((startedTask ⟨s, .work i, s'⟩).map Prod.fst = some k) ↔
          (w.pc = .call ∧ w.number = k) := by
        rw [startedTask_work hw]
        split <;> simp [*]
      have hreturn : (returnedNumber ⟨s, .work i, s'⟩ = some k) ↔
          (w.pc = .running ∧ w.number = k) := by
        rw [returnedNumber_work hw]
        split <;> simp [*]
      simp only [State.runners, hstart, hreturn] at ih ⊢
      omega
    · have hfresh : Worker.runs k .fresh = false := rfl
      rw [← ih, startedTask_other hl, returnedNumber_other hl]
      simp [State.runners, hcount, hfresh]

/-! ## Whose task it is, and in which order -/

end LinuxExercise.ThreadPool
