import LinuxExercise.ThreadPool.Counters

/-!
# The slots of `pool->threads`

The manager decides by `threads[i]` whether slot `i` is free: by its being `0`, or else by
asking `pthread_kill` about the id it holds.  `threadpool_create` clears `sizeof(pool->threads)`
bytes, the size of a pointer, so every slot but the first keeps what `malloc` left there until
a worker is put into it.  `slots_defined_iff` says for which memory that does no harm.

The bounds on the number of workers do not depend on it.  A slot is only ever overwritten after
the thread it names was found dead, so every live worker keeps a slot of its own
(`worker_count_bounds`).
-/

namespace LinuxExercise.ThreadPool

/-! ## Slots that hold ids -/

/-- `tid` is the id of a worker that `pthread_create` has started. -/
def State.IsWorkerId (s : State) (tid : ℕ) : Prop := ∃ i < s.workers.length, tid = tidOf i

/-- Every slot is unset or holds the id of a worker, so line 224 asks about workers only. -/
structure DefinedSlots (s : State) : Prop where
  slots : ∀ tid ∈ s.pool.threads, tid = 0 ∨ s.IsWorkerId tid
  asked : s.adjust.pc = .ifSlot → s.pool.threads.getD s.adjust.i 0 ≠ 0 →
    s.IsWorkerId (s.pool.threads.getD s.adjust.i 0)

/-- The slots that neither the `memset` nor the loop of lines 97-100 writes are zero already, or
hold by accident the id of an initial worker. -/
def UnwrittenDefined (c : Config) (m : Memory) : Prop :=
  ∀ j, 1 ≤ j → c.threadMinNum ≤ j → j < c.threadMaxNum →
    m.threads j = 0 ∨ ∃ i < c.threadMinNum, m.threads j = tidOf i

/-- The loop of lines 97-100 leaves the slots from `n` on alone. -/
theorem startThreads_getElem?_of_le (ts : List ℕ) {n j : ℕ} (hj : n ≤ j) :
    (startThreads ts n)[j]? = ts[j]? := by
  induction n with
  | zero => rfl
  | succ n ih =>
    rw [startThreads, List.getElem?_set_ne (by omega)]
    exact ih (by omega)

theorem created_threads_length (c : Config) (m : Memory) :
    (created c m).pool.threads.length = c.threadMaxNum := by
  simp [created, threadpoolCreate]

/-- A slot that is never written holds what `malloc` left there. -/
theorem created_unwritten {c : Config} {m : Memory} {j : ℕ} (hpos : 1 ≤ j)
    (hmin : c.threadMinNum ≤ j) (hmax : j < c.threadMaxNum) :
    (created c m).pool.threads[j]? = some (m.threads j) := by
  have hkept := startThreads_getElem?_of_le
    (((List.range c.threadMaxNum).map m.threads).set 0 0) hmin
  apply hkept.trans
  rw [List.getElem?_set_ne (by omega), List.getElem?_map, List.getElem?_range hmax]
  rfl

theorem created_isWorkerId {c : Config} {m : Memory} {tid : ℕ} :
    (created c m).IsWorkerId tid ↔ ∃ i < c.threadMinNum, tid = tidOf i := by
  simp [State.IsWorkerId, created]

/-- What `threadpool_create` returns. -/
theorem created_slots {c : Config} {m : Memory} (hle : c.threadMinNum ≤ c.threadMaxNum)
    (hmem : UnwrittenDefined c m) :
    ∀ tid ∈ (created c m).pool.threads, tid = 0 ∨ (created c m).IsWorkerId tid := by
  intro tid htid
  rw [created_isWorkerId]
  obtain ⟨j, hj⟩ := List.getElem?_of_mem htid
  have hmax : j < c.threadMaxNum := by
    rw [← created_threads_length c m]
    exact (List.getElem?_eq_some_iff.mp hj).1
  by_cases hmin : c.threadMinNum ≤ j
  · by_cases hpos : 1 ≤ j
    · rw [created_unwritten hpos hmin hmax] at hj
      obtain rfl := Option.some.inj hj
      exact hmem j hpos hmin hmax
    · -- The one slot that the `memset` covers.
      obtain rfl : j = 0 := by omega
      have hzero := startThreads_getElem?_of_le
        (((List.range c.threadMaxNum).map m.threads).set 0 0) hmin
      have hcleared : (created c m).pool.threads[0]? = some 0 := by
        apply hzero.trans
        simp [hmax]
      exact .inl (Option.some.inj (hj.symm.trans hcleared))
  · have hstarted : (created c m).pool.threads[j]? = some (tidOf j) :=
      startThreads_getElem? (by omega) (by simpa using hle)
    exact .inr ⟨j, by omega, Option.some.inj (hj.symm.trans hstarted)⟩

/-- A worker id stays one, and the only id a step stores is that of a worker. -/
theorem Stepped.slots {s s' : State} {l : Label} (h : Stepped s l s')
    (hinv : ∀ tid ∈ s.pool.threads, tid = 0 ∨ s.IsWorkerId tid) :
    ∀ tid ∈ s'.pool.threads, tid = 0 ∨ s'.IsWorkerId tid := by
  have hkeep : ∀ tid, s.IsWorkerId tid → s'.IsWorkerId tid := by
    rintro tid ⟨i, hi, rfl⟩
    exact ⟨i, hi.trans_le h.workers_length, rfl⟩
  intro tid htid
  rcases h.threads with hsame | ⟨-, hset, hlt⟩
  · rw [hsame] at htid
    exact (hinv tid htid).imp_right (hkeep tid)
  · rw [hset] at htid
    rcases List.mem_or_eq_of_mem_set htid with hold | rfl
    · exact (hinv tid hold).imp_right (hkeep tid)
    · exact .inr ⟨s.workers.length, hlt, rfl⟩

theorem slots_of_run {c : Config} {m : Memory} (hle : c.threadMinNum ≤ c.threadMaxNum)
    (hmem : UnwrittenDefined c m) {h : History} {s : State} (hrun : (threadpool c m).Run h s) :
    ∀ tid ∈ s.pool.threads, tid = 0 ∨ s.IsWorkerId tid := by
  refine hrun.invariant (I := fun s => ∀ tid ∈ s.pool.threads, tid = 0 ∨ s.IsWorkerId tid) ?_ ?_
  · rintro s rfl
    exact created_slots hle hmem
  · exact fun s l s' _ hstep hinv => (stepped_of_run hstep).slots hinv

/-- **When the slots are well defined.**  In every reachable state every slot is unset or holds
the id of a worker, if and only if the slots that `threadpool_create` leaves unwritten happened
to be zero (or to hold the id of an initial worker). -/
theorem slots_defined_iff (c : Config) (m : Memory) (hle : c.threadMinNum ≤ c.threadMaxNum) :
    (∀ h s, (threadpool c m).Run h s → DefinedSlots s) ↔ UnwrittenDefined c m := by
  constructor
  · intro hall j hpos hmin hmax
    have hslot := created_unwritten (c := c) (m := m) hpos hmin hmax
    have hdefined := (hall [] _ (.start rfl)).slots _ (List.mem_of_getElem? hslot)
    exact hdefined.imp_right created_isWorkerId.1
  · intro hmem h s hrun
    have hslots := slots_of_run hle hmem hrun
    refine ⟨hslots, fun hpc hset => ?_⟩
    have hlt := (slotInv_of_run hle hrun).scan (.inl hpc)
    have hget : s.pool.threads.getD s.adjust.i 0 = s.pool.threads[s.adjust.i] := by
      simp [List.getD, hlt]
    rw [hget] at hset ⊢
    exact (hslots _ (List.getElem_mem hlt)).resolve_left hset

/-- A pool in cleared memory grows, and line 224 asks about slot `1`. -/
theorem slots_defined_cleared : ∃ h s, (threadpool ⟨1, 3, 5⟩ .cleared).Run h s ∧
    s.adjust.pc = .ifSlot ∧ s.adjust.i = 1 ∧ DefinedSlots s := by
  obtain ⟨h, s, hrun, hP⟩ := exists_run_of_schedule ⟨1, 3, 5⟩ .cleared
    (backlogSchedule ++ List.replicate 10 (.adjust false 0))
    (fun _ s => decide (s.adjust.pc = .ifSlot) && decide (s.adjust.i = 1)) (by decide +kernel)
  simp only [Bool.and_eq_true, decide_eq_true_eq] at hP
  have hdefined := (slots_defined_iff ⟨1, 3, 5⟩ .cleared (by decide)).2 fun _ _ _ _ => .inl rfl
  exact ⟨h, s, hrun, hP.1, hP.2, hdefined h s hrun⟩

/-- Memory in which every word is `99`. -/
def Memory.dirty : Memory := ⟨fun _ => 99, fun _ => default⟩

/-- The pool grows and line 224 asks about slot `1`, which holds what `malloc` left there. -/
theorem slots_not_defined :
    ¬ ∀ (c : Config) (m : Memory), c.threadMinNum ≤ c.threadMaxNum →
      ∀ h s, (threadpool c m).Run h s → DefinedSlots s := by
  intro hclaim
  obtain ⟨h, s, hrun, hP⟩ := exists_run_of_schedule ⟨1, 3, 5⟩ .dirty
    (backlogSchedule ++ List.replicate 10 (.adjust false 0))
    (fun _ s => decide (s.adjust.pc = .ifSlot) && decide (s.adjust.i = 1) &&
      decide (s.pool.threads = [1, 99, 99]) && decide (s.workers.length = 1)) (by decide +kernel)
  simp only [Bool.and_eq_true, decide_eq_true_eq] at hP
  obtain ⟨⟨⟨hpc, hi⟩, hthreads⟩, hlen⟩ := hP
  have hasked := (hclaim _ _ (by decide) h s hrun).asked hpc
  rw [hi, hthreads] at hasked
  obtain ⟨i, hlt, htid⟩ := hasked (by decide)
  rw [hlen] at hlt
  obtain rfl : i = 0 := by omega
  cases htid

/-! ## Slots of live workers -/

/-- The live workers have slots of their own, no growth takes one away from them, and there are
at least as many as the minimum and at most as many as the maximum. -/
structure WorkerBounds (c : Config) (h : History) (s : State) : Prop where
  slots : ∃ slot : ℕ → ℕ,
    (∀ (i : ℕ) (w : Worker), s.workers[i]? = some w → w.isLive = true →
      slot i < c.threadMaxNum ∧ s.pool.threads[slot i]? = some (tidOf i)) ∧
    ∀ (i j : ℕ) (v w : Worker), s.workers[i]? = some v → v.isLive = true →
      s.workers[j]? = some w → w.isLive = true → slot i = slot j → i = j
  kept : ∀ e ∈ h, isGrowth e = true → ∀ (i j : ℕ) (w : Worker), e.pre.workers[i]? = some w →
    w.isLive = true → e.pre.pool.threads[j]? = some (tidOf i) →
      e.post.pool.threads[j]? = some (tidOf i)
  lower : c.threadMinNum ≤ s.liveWorkers
  upper : s.liveWorkers ≤ c.threadMaxNum

/-- Every live worker has a slot of its own. -/
theorem SlotInv.slots {s : State} (h : SlotInv s) : ∃ slot : ℕ → ℕ,
    (∀ (i : ℕ) (w : Worker), s.workers[i]? = some w → w.isLive = true →
      slot i < s.pool.pthreadMaxNum ∧ s.pool.threads[slot i]? = some (tidOf i)) ∧
    ∀ (i j : ℕ) (v w : Worker), s.workers[i]? = some v → v.isLive = true →
      s.workers[j]? = some w → w.isLive = true → slot i = slot j → i = j := by
  have hsome : ∀ i : ℕ, ∃ j, ∀ w, s.workers[i]? = some w → w.isLive = true →
      j < s.pool.pthreadMaxNum ∧ s.pool.threads[j]? = some (tidOf i) := by
    intro i
    by_cases hlive : ∃ w, s.workers[i]? = some w ∧ w.isLive = true
    · obtain ⟨w, hw, hwl⟩ := hlive
      obtain ⟨j, hj, hslot⟩ := h.slot i w hw hwl
      exact ⟨j, fun _ _ _ => ⟨h.length ▸ hj, hslot⟩⟩
    · exact ⟨0, fun w hw hwl => absurd ⟨w, hw, hwl⟩ hlive⟩
  choose slot hslot using hsome
  refine ⟨slot, hslot, fun i j v w hv hvl hw hwl heq => ?_⟩
  have hi := (hslot i v hv hvl).2
  rw [heq, (hslot j w hw hwl).2] at hi
  exact (tidOf_injective (Option.some.inj hi)).symm

/-- A growth leaves the slots of live workers as they are. -/
theorem SlotInv.kept {s s' : State} {l : Label} (h : SlotInv s) (hstep : Stepped s l s')
    {i j : ℕ} {w : Worker} (hw : s.workers[i]? = some w) (hlive : w.isLive = true)
    (hslot : s.pool.threads[j]? = some (tidOf i)) : s'.pool.threads[j]? = some (tidOf i) := by
  rcases hstep.threads with hsame | ⟨hcreates, hset, -⟩
  · rw [hsame, hslot]
  · have hpc : s.adjust.pc = .create := by
      cases l <;> first | exact of_decide_eq_true hcreates | cases hcreates
    have hne : s.adjust.i ≠ j := by
      rintro rfl
      exact h.dead hpc i w hw hlive hslot
    rw [hset, List.getElem?_set_ne hne, hslot]

/-- **The number of workers stays within its bounds** as long as the pool is running, although
the growth loop does not count them. -/
theorem worker_count_bounds (c : Config) (m : Memory) (h : History) (s : State)
    (hle : c.threadMinNum ≤ c.threadMaxNum) (hrun : (threadpool c m).Run h s)
    (hshut : s.pool.shutdown = false) : WorkerBounds c h s := by
  have hmax : s.pool.pthreadMaxNum = c.threadMaxNum :=
    congrArg Config.threadMaxNum (config_of_run hrun)
  refine ⟨hmax ▸ (slotInv_of_run hle hrun).slots, ?_, ?_, live_le_max hle hrun⟩
  · intro e he _ i j w hw hlive hslot
    obtain ⟨h₀, -, hrun₀, hstep⟩ := hrun.of_mem he
    exact (slotInv_of_run hle hrun₀).kept (stepped_of_run hstep) hw hlive hslot
  · have halive : s.pool.pthreadAliveNum = c.threadMinNum := by
      rw [(noRetire_of_run hrun).alive]
      exact congrArg (fun c : Config => (c.threadMinNum : ℤ)) (config_of_run hrun)
    have hledger := live_eq_alive_add_growth hrun hshut
    omega

/-- The pool has grown from one worker to its maximum of three. -/
theorem worker_count_bounds_grown :
    ∃ h s, (threadpool ⟨1, 3, 5⟩ .cleared).Run h s ∧ s.liveWorkers = 3 ∧
      WorkerBounds ⟨1, 3, 5⟩ h s := by
  obtain ⟨h, s, hrun, hP⟩ := exists_run_of_schedule ⟨1, 3, 5⟩ .cleared growthSchedule
    (fun _ s => !s.pool.shutdown && decide (s.liveWorkers = 3)) (by decide +kernel)
  simp only [Bool.and_eq_true, Bool.not_eq_true', decide_eq_true_eq] at hP
  obtain ⟨hshut, hlive⟩ := hP
  exact ⟨h, s, hrun, hlive, worker_count_bounds _ _ h s (by decide) hrun hshut⟩

end LinuxExercise.ThreadPool
