import LinuxExercise.ThreadPool.Progress

/-!
# Whom destruction leaves behind

`threadpool_destroy` sets `shutdown` and broadcasts `queue_not_empty` without the mutex, and it
never waits for the calls of `threadpool_add`.

* A worker that has tested `shutdown` and has not yet entered `pthread_cond_wait` misses the
  broadcast and sleeps for ever.  `wakes_workers_iff` says that this is the only way: if no
  worker is between lines 159 and 161 at the broadcast then none sleeps again, and every
  thread that is joined can go on to its exit.
* A call that sleeps on a full queue is woken by a worker that takes a task, and once
  `shutdown` is set the workers leave without taking one.  `strands_no_call_iff` says that
  line 269 is safe for the calls that had begun before line 259 if and only if they have all
  returned.

Both are statements about everything that can happen after a given step of a run.
-/

namespace LinuxExercise.ThreadPool

/-! ## What is known after the broadcast -/

/-- No worker sleeps, and none is about to. -/
def Awake (s : State) : Prop := ∀ w ∈ s.workers, w.pc ≠ .wait ∧ w.pc ≠ .blocked

variable {c : Config} {m : Memory}

theorem Closing.awake {s s' : State} {l : Label} (hs : Closing c m s) (h : step s l = some s')
    (hawake : Awake s) : Awake s' := by
  have hstepped := stepped_of_step h
  intro v hv
  obtain ⟨i, hi⟩ := List.getElem?_of_mem hv
  rcases hstepped.worker hi with ⟨w, hw, hvw⟩ | ⟨w, p, e, -, hw, -, hwork⟩ | ⟨-, hpc, -, -⟩
  · have hpc := hawake w (List.mem_of_getElem? hw)
    rw [Worker.wake_eq_self hpc.2, or_self] at hvw
    rw [hvw]
    exact hpc
  · exact threadpoolThread_awake hwork hs.shutdown (hawake w (List.mem_of_getElem? hw)).1
  · rw [hs.manager] at hpc
    cases hpc

/-- After the manager has returned, the continuations of a run only wind the pool down. -/
theorem Closing.of_run {h h' : History} {s s' : State} (hs : Closing c m s)
    (hrun : (threadpool c m).Run h s) (hrun' : (threadpool c m).Run (h ++ h') s') :
    Closing c m s' := by
  refine System.Run.after (J := fun _ s => Closing c m s) (fun s₁ h₁ => ?_) ?_ hrun'
  · rw [System.Run.end_unique h₁ hrun]
    exact hs
  · exact fun _ _ _ _ _ hstep hs₁ => hs₁.after_step hstep

theorem Awake.of_run {h h' : History} {s s' : State} (hawake : Awake s) (hs : Closing c m s)
    (hrun : (threadpool c m).Run h s) (hrun' : (threadpool c m).Run (h ++ h') s') : Awake s' := by
  refine System.Run.after (J := fun _ s => Awake s) (fun s₁ h₁ => ?_) ?_ hrun'
  · rw [System.Run.end_unique h₁ hrun]
    exact hawake
  · exact fun _ _ _ _ hr hstep hawake₁ => (hs.of_run hrun hr).awake hstep hawake₁

/-! ## Threads that go on to their exit -/

/-- The step is a statement of the `i`-th worker. -/
def isStatement (i : ℕ) (e : Event State Label) : Bool := decide (e.label = .work i)

/-- After `h` the `i`-th worker has terminated or will: it has a bounded number of statements
left, and whatever happens it can still go on to its exit. -/
structure WillExit (c : Config) (m : Memory) (h : History) (i : ℕ) : Prop where
  bounded : ∃ n, ∀ h' s, (threadpool c m).Run (h ++ h') s → h'.countP (isStatement i) ≤ n
  exits : ∀ h' s, (threadpool c m).Run (h ++ h') s → ∃ h'' s',
    (threadpool c m).Run (h ++ h' ++ h'') s' ∧ ∃ w, s'.workers[i]? = some w ∧ w.pc = .exited

theorem Worker.wake_rank_le (w : Worker) : w.wake.rank ≤ w.rank := by
  unfold Worker.wake
  split
  · next hpc => simp [Worker.rank, hpc]
  · exact le_rfl

/-- A worker executes at most as many statements as its rank says. -/
theorem Closing.statements_le {h h' : History} {s s' : State} (hs : Closing c m s)
    (hrun : (threadpool c m).Run h s) {i : ℕ} {w : Worker} (hw : s.workers[i]? = some w)
    (hrun' : (threadpool c m).Run (h ++ h') s') :
    ∃ v, s'.workers[i]? = some v ∧ h'.countP (isStatement i) + v.rank ≤ w.rank := by
  refine System.Run.after (J := fun g s => ∃ v, s.workers[i]? = some v ∧
    g.countP (isStatement i) + v.rank ≤ w.rank) (fun s₁ h₁ => ?_) ?_ hrun'
  · rw [System.Run.end_unique h₁ hrun]
    exact ⟨w, hw, by simp⟩
  · intro g s₁ l s₂ hr hstep ih
    obtain ⟨v, hv, hle⟩ := ih
    have hs₁ := hs.of_run hrun hr
    have hstepped := stepped_of_step hstep
    have hlt : i < s₁.workers.length := (List.getElem?_eq_some_iff.mp hv).1
    have hv' := List.getElem?_eq_getElem (hlt.trans_le hstepped.workers_length)
    refine ⟨_, hv', ?_⟩
    rw [List.countP_append, List.countP_singleton]
    by_cases hl : l = .work i
    · subst hl
      obtain ⟨x, y, e, hx, hy, hexe⟩ := hstepped.executes rfl
      have hrank := hexe.rank hs₁.shutdown nofun
      obtain rfl : x = .work v := by simpa [State.thread, hv] using hx.symm
      obtain rfl : y = .work _ := by simpa [State.thread, hv'] using hy.symm
      have hstatement : isStatement i ⟨s₁, .work i, s₂⟩ = true := by simp [isStatement]
      rw [hstatement, if_pos rfl]
      simp only [Local.rank] at hrank
      omega
    · have hstatement : isStatement i ⟨s₁, l, s₂⟩ = false := by simp [isStatement, hl]
      rw [hstatement]
      rcases hstepped.worker hv' with ⟨v', hv₁, hsame⟩ | ⟨_, _, _, hl', -⟩ | ⟨-, -, hi, -⟩
      · obtain rfl := Option.some.inj (hv.symm.trans hv₁)
        have hwake := v.wake_rank_le
        rcases hsame with hsame | hsame <;> rw [hsame] <;> simp <;> omega
      · exact absurd hl' hl
      · omega

theorem Closing.willExit {h : History} {s : State} (hs : Closing c m s) (hawake : Awake s)
    (hrun : (threadpool c m).Run h s) {i : ℕ} (hi : i < s.workers.length) :
    WillExit c m h i := by
  have hw := List.getElem?_eq_getElem hi
  refine ⟨⟨s.workers[i].rank, fun h' s' hrun' => ?_⟩, fun h' s' hrun' => ?_⟩
  · obtain ⟨v, -, hle⟩ := hs.statements_le hrun hw hrun'
    exact (Nat.le_add_right _ _).trans hle
  · obtain ⟨v, hv, -⟩ := hs.statements_le hrun hw hrun'
    obtain ⟨hwait, hblocked⟩ := hawake.of_run hs hrun hrun' v (List.mem_of_getElem? hv)
    obtain ⟨s'', hlead, hend⟩ := (hs.of_run hrun hrun').exists_exit hv hwait hblocked
    obtain ⟨h'', hrun''⟩ := hrun'.leads hlead
    exact ⟨h'', s'', hrun'', hend⟩

/-! ## The slots that are joined -/

/-- Every slot that `threadpool_destroy` joins names a worker. -/
theorem joined_slot_of_run (hle : c.threadMinNum ≤ c.threadMaxNum) {h : History} {s : State}
    (hrun : (threadpool c m).Run h s) : ∀ j < c.threadMinNum,
      ∃ i < s.workers.length, s.pool.threads[j]? = some (tidOf i) := by
  refine hrun.invariant (I := fun s => ∀ j < c.threadMinNum,
    ∃ i < s.workers.length, s.pool.threads[j]? = some (tidOf i)) ?_ ?_
  · rintro s rfl j hj
    exact ⟨j, by simpa [created] using hj, startThreads_getElem? hj (by simpa using hle)⟩
  · intro s l s' _ hstep ih j hj
    have hstepped := stepped_of_run hstep
    obtain ⟨i, hi, hslot⟩ := ih j hj
    rcases hstepped.threads with hsame | ⟨-, hset, hlt⟩
    · exact ⟨i, hi.trans_le hstepped.workers_length, by rw [hsame, hslot]⟩
    · by_cases hij : s.adjust.i = j
      · subst hij
        have hj' : s.adjust.i < s.pool.threads.length := (List.getElem?_eq_some_iff.mp hslot).1
        exact ⟨s.workers.length, hlt, by rw [hset]; simp [hj']⟩
      · exact ⟨i, hi.trans hlt, by rw [hset]; simp [hij, hslot]⟩

/-! ## Workers -/

/-- The step is line 263. -/
def broadcasts (e : Event State Label) : Prop :=
  e.label = .destroy ∧ e.pre.destroy.pc = .broadcast

/-- Whatever happens after `h`, no worker sleeps on `queue_not_empty`, and every thread that
`threadpool_destroy` joins has terminated or will. -/
structure WakesWorkers (c : Config) (m : Memory) (h : History) : Prop where
  awake : ∀ h' s, (threadpool c m).Run (h ++ h') s → ∀ w ∈ s.workers, w.isBlocked = false
  joins : ∀ h' s, (threadpool c m).Run (h ++ h') s → ∀ j < c.threadMinNum,
    ∃ i, s.pool.threads[j]? = some (tidOf i) ∧ WillExit c m (h ++ h') i

theorem threadpoolDestroy_shutdown {md wd : Bool} {p p' : Pool} {d d' : Destroy} {e : Effect}
    (h : threadpoolDestroy md wd p d = some (p', d', e))
    (hinv : d.pc = .idle ∨ d.pc = .setShutdown ∨ p.shutdown = true) :
    d'.pc = .idle ∨ d'.pc = .setShutdown ∨ p'.shutdown = true := by
  obtain ⟨pc, i⟩ := d
  cases pc <;> simp only [threadpoolDestroy] at h
  all_goals repeat' split at h
  all_goals cases h
  all_goals simp_all

/-- After line 259 `shutdown` is set. -/
theorem shutdown_of_run {h : History} {s : State} (hrun : (threadpool c m).Run h s) :
    s.destroy.pc = .idle ∨ s.destroy.pc = .setShutdown ∨ s.pool.shutdown = true := by
  refine hrun.invariant (I := fun s => s.destroy.pc = .idle ∨ s.destroy.pc = .setShutdown ∨
    s.pool.shutdown = true) ?_ ?_
  · rintro s rfl
    exact .inl rfl
  · intro s l s' _ hstep ih
    have hkeep := (stepped_of_run hstep).shutdown
    cases stepped_of_run hstep with
    | call | wakeAdd | wakeWork => exact ih
    | add _ _ happ | work _ _ happ | adjust _ happ =>
      rw [(applied_of_apply happ).destroy]
      exact ih.imp_right (Or.imp_right hkeep)
    | destroy hdes happ =>
      have hap := applied_of_apply happ
      rw [hap.destroy, hap.pool]
      exact threadpoolDestroy_shutdown hdes ih

/-- What `threadpool_destroy` knows when it broadcasts. -/
theorem closing_of_broadcast {h : History} {e : Event State Label}
    (hrun : (threadpool c m).Run h e.pre) (he : broadcasts e)
    (hstep : step e.pre e.label = some e.post) : Closing c m e.post := by
  have hstepped := stepped_of_step hstep
  have hmanager : e.pre.adjust.pc = .returned := by
    have hjoined := joined_of_run hrun
    rwa [Joined, he.2] at hjoined
  have hshutdown : e.pre.pool.shutdown = true := by
    rcases shutdown_of_run hrun with hpc | hpc | hs
    · rw [he.2] at hpc
      cases hpc
    · rw [he.2] at hpc
      cases hpc
    · exact hs
  refine ⟨⟨_, hrun.step hstep⟩, hstepped.shutdown hshutdown, ?_⟩
  rw [(hstepped.managerDone hmanager).1, hmanager]

/-- The broadcast reaches every worker that is not about to sleep. -/
theorem awake_of_broadcast {e : Event State Label} (he : broadcasts e)
    (hstep : step e.pre e.label = some e.post) (hwait : ∀ w ∈ e.pre.workers, w.pc ≠ .wait) :
    Awake e.post := by
  have hworkers : e.post.workers = e.pre.workers.map Worker.wake := by
    rw [he.1] at hstep
    simp only [step, threadpoolDestroy, he.2, State.apply, Option.some.injEq] at hstep
    rw [← hstep]
  rw [Awake, hworkers]
  intro v hv
  obtain ⟨w, hw, rfl⟩ := List.mem_map.mp hv
  by_cases hpc : w.pc = .blocked
  · simp [Worker.wake, hpc]
  · rw [Worker.wake_eq_self hpc]
    exact ⟨hwait w hw, hpc⟩

/-- **Which workers the broadcast misses.**  Nobody sleeps after the broadcast of
`threadpool_destroy`, and every join is on a thread that has terminated or will, if and only
if at the broadcast no worker is between its test and its `pthread_cond_wait`. -/
theorem wakes_workers_iff (c : Config) (m : Memory) (hle : c.threadMinNum ≤ c.threadMaxNum)
    (h : History) (e : Event State Label) (s : State)
    (hrun : (threadpool c m).Run (h ++ [e]) s) (he : broadcasts e) :
    WakesWorkers c m (h ++ [e]) ↔ ∀ w ∈ e.pre.workers, w.pc ≠ .wait := by
  obtain ⟨hpre, hstep, rfl⟩ := hrun.of_snoc
  change step e.pre e.label = some e.post at hstep
  have hclosing := closing_of_broadcast hpre he hstep
  constructor
  · intro hwakes w hw hwait
    obtain ⟨i, hi⟩ := List.getElem?_of_mem hw
    have hnone : e.label.thread ≠ some (.worker i) := by
      simp [he.1, Label.thread]
    -- The broadcast does not see the worker, whose next statement puts it to sleep.
    have hx : e.post.thread (.worker i) = some (.work w) := by
      apply (stepped_of_step hstep).keeps hnone (by simp [State.thread, hi])
      simp [Local.isBlocked, Worker.isBlocked, hwait]
    have hexe : Executes e.post (.worker i) (.work w) { e.post.pool with lock := none }
        (.work { w with pc := .blocked }) .none := by
      refine .work ?_
      simp [threadpoolThread, hwait]
    obtain ⟨l, s', hnext, -, -, hy⟩ := hexe.exists_step hx (by simp)
    have hw' : s'.workers[i]? = some { w with pc := .blocked } := by
      simpa [State.thread] using hy
    have hsleeps := hwakes.awake _ _ (hrun.step hnext) _ (List.mem_of_getElem? hw')
    cases hsleeps
  · intro hwait
    have hawake := awake_of_broadcast he hstep hwait
    constructor
    · intro h' s' hrun' w hw
      have hpc := (hawake.of_run hclosing hrun hrun' w hw).2
      simp [Worker.isBlocked, hpc]
    · intro h' s' hrun' j hj
      obtain ⟨i, hi, hslot⟩ := joined_slot_of_run hle hrun' j hj
      have hclosing' := hclosing.of_run hrun hrun'
      exact ⟨i, hslot, hclosing'.willExit (hawake.of_run hclosing hrun hrun') hrun' hi⟩

/-- The only worker has not begun its loop when the pool is destroyed. -/
theorem wakes_workers_not_started :
    ∃ h e s, (threadpool ⟨1, 1, 1⟩ .cleared).Run (h ++ [e]) s ∧ broadcasts e ∧
      WakesWorkers ⟨1, 1, 1⟩ .cleared (h ++ [e]) := by
  obtain ⟨h, s, hrun, hP⟩ := exists_run_of_schedule ⟨1, 1, 1⟩ .cleared
    (List.replicate 2 .destroy ++ [.adjust false 0] ++ List.replicate 2 .destroy)
    (fun h _ => h.any fun e => decide (e.label = .destroy) &&
      decide (e.pre.destroy.pc = .broadcast) &&
      e.pre.workers.all fun (w : Worker) => decide (w.pc ≠ .wait)) (by decide +kernel)
  simp only [List.any_eq_true, Bool.and_eq_true, decide_eq_true_eq, List.all_eq_true] at hP
  obtain ⟨e, he, ⟨hlabel, hpc⟩, hwait⟩ := hP
  obtain ⟨h₀, -, hrun₀, hstep⟩ := hrun.of_mem he
  have hrun₁ := hrun₀.step hstep
  exact ⟨h₀, e, _, hrun₁, ⟨hlabel, hpc⟩,
    (wakes_workers_iff _ _ (by decide) h₀ e _ hrun₁ ⟨hlabel, hpc⟩).2 hwait⟩

/-- The only worker tests `shutdown`, the pool is destroyed up to the broadcast, and then the
worker enters `pthread_cond_wait`. -/
theorem broadcast_misses_worker :
    ¬ ∀ (c : Config) (m : Memory) (h : History) (e : Event State Label) (s : State),
      0 < c.threadMinNum → c.threadMinNum ≤ c.threadMaxNum → 1 ≤ c.queueMaxSize →
      (threadpool c m).Run (h ++ [e]) s → broadcasts e → WakesWorkers c m (h ++ [e]) := by
  intro hclaim
  obtain ⟨h, s, hrun, hP⟩ := exists_run_of_schedule ⟨1, 1, 1⟩ .cleared
    (List.replicate 2 (.work 0) ++ List.replicate 2 .destroy ++ [.adjust false 0] ++
      List.replicate 2 .destroy ++ [.work 0])
    (fun h s => s.workers.any Worker.isBlocked && h.any fun e => decide (e.label = .destroy) &&
      decide (e.pre.destroy.pc = .broadcast)) (by decide +kernel)
  simp only [List.any_eq_true, Bool.and_eq_true, decide_eq_true_eq] at hP
  obtain ⟨⟨w, hw, hsleeps⟩, e, he, hlabel, hpc⟩ := hP
  obtain ⟨h₀, ⟨h', rfl⟩, hrun₀, hstep⟩ := hrun.of_mem he
  have hwakes := hclaim ⟨1, 1, 1⟩ .cleared h₀ e e.post (by decide) (by decide) (by decide)
    (hrun₀.step hstep) ⟨hlabel, hpc⟩
  rw [hwakes.awake h' s hrun w hw] at hsleeps
  cases hsleeps

/-! ## Calls -/

/-- The step is line 259. -/
def setsShutdown (e : Event State Label) : Prop :=
  e.label = .destroy ∧ e.pre.destroy.pc = .setShutdown

/-- The `i`-th call had begun when line 259 was executed. -/
def begunBefore (h : History) (i : ℕ) : Prop := ∃ e ∈ h, setsShutdown e ∧ i < e.pre.adders.length

/-- In the step `e` that frees the pool after `h`, no call sleeps on `queue_not_full`, and
whatever happens afterwards, no call that had begun before line 259 executes a statement. -/
structure StrandsNoCall (c : Config) (m : Memory) (h : History) (e : Event State Label) :
    Prop where
  awake : ∀ a ∈ e.pre.adders, a.isBlocked = false
  untouched : ∀ h' s, (threadpool c m).Run (h ++ [e] ++ h') s → ∀ e' ∈ h', ∀ i choice,
    begunBefore h i → e'.label ≠ .add i choice

/-- Calls that have begun are there. -/
theorem lt_length_of_begunBefore {h : History} {s : State} (hrun : (threadpool c m).Run h s)
    {i : ℕ} (hi : begunBefore h i) : i < s.adders.length := by
  obtain ⟨e, he, -, hlt⟩ := hi
  have hpost : i < e.post.adders.length := by
    obtain ⟨h₀, -, -, hstep⟩ := hrun.of_mem he
    exact hlt.trans_le (stepped_of_run hstep).adders_length
  exact hrun.stable (C := fun s => i < s.adders.length)
    (fun s l s' hstep hlt' => hlt'.trans_le (stepped_of_run hstep).adders_length) he hpost

theorem threadpoolDestroy_sets {md wd : Bool} {p p' : Pool} {d d' : Destroy} {e : Effect}
    (h : threadpoolDestroy md wd p d = some (p', d', e)) (hbefore : p.shutdown = false)
    (hafter : p'.shutdown = true) : d.pc = .setShutdown := by
  obtain ⟨pc, i⟩ := d
  cases pc <;> simp only [threadpoolDestroy] at h
  all_goals repeat' split at h
  all_goals cases h
  all_goals simp_all

/-- Only line 259 sets `shutdown`. -/
theorem Stepped.setsShutdown {s s' : State} {l : Label} (h : Stepped s l s')
    (hbefore : s.pool.shutdown = false) (hafter : s'.pool.shutdown = true) :
    setsShutdown ⟨s, l, s'⟩ ∧ s'.adders = s.adders := by
  cases h with
  | call | wakeAdd | wakeWork =>
    exact absurd (hbefore.symm.trans hafter) nofun
  | add _ hadd happ =>
    rw [(applied_of_apply happ).pool, State.setAdder, threadpoolAdd_frame hadd] at hafter
    exact absurd (hbefore.symm.trans hafter) nofun
  | work _ hwork happ =>
    rw [(applied_of_apply happ).pool, State.setWorker, threadpoolThread_frame hwork] at hafter
    exact absurd (hbefore.symm.trans hafter) nofun
  | adjust hadj happ =>
    rw [(applied_of_apply happ).pool, adjustThread_frame hadj] at hafter
    exact absurd (hbefore.symm.trans hafter) nofun
  | @destroy d p e _ hdes happ =>
    have hap := applied_of_apply happ
    rw [hap.pool] at hafter
    have hadders : s'.adders = s.adders := by
      rw [hap.adders, if_neg]
      rcases threadpoolDestroy_effect hdes with rfl | rfl | rfl <;> simp
    exact ⟨⟨rfl, threadpoolDestroy_sets hdes hbefore hafter⟩, hadders⟩

/-- Once `shutdown` is set, a call that sleeps or is about to had begun before. -/
theorem begunBefore_of_waits {h : History} {s : State} (hrun : (threadpool c m).Run h s) :
    s.pool.shutdown = true → ∀ i a, s.adders[i]? = some a → a.pc = .wait ∨ a.pc = .blocked →
      begunBefore h i := by
  refine hrun.ledger (J := fun h s => s.pool.shutdown = true → ∀ i a, s.adders[i]? = some a →
    a.pc = .wait ∨ a.pc = .blocked → begunBefore h i) ?_ ?_
  · rintro s rfl hs
    cases hs
  · intro h s l s' _ hstep ih hs' i b hb hwait
    have hstepped := stepped_of_run hstep
    cases hs : s.pool.shutdown with
    | false =>
      obtain ⟨hsets, hadders⟩ := hstepped.setsShutdown hs hs'
      rw [hadders] at hb
      exact ⟨_, List.mem_append_right _ (List.mem_singleton.mpr rfl), hsets,
        (List.getElem?_eq_some_iff.mp hb).1⟩
    | true =>
      have hold : ∀ a, s.adders[i]? = some a → a.pc = .wait ∨ a.pc = .blocked →
          begunBefore (h ++ [⟨s, l, s'⟩]) i := by
        intro a ha hpc
        obtain ⟨e, he, hrest⟩ := ih hs i a ha hpc
        exact ⟨e, List.mem_append_left _ he, hrest⟩
      rcases hstepped.adder hb with ⟨a, ha, rfl | rfl, -⟩ | ⟨choice, a, p, e, -, ha, hadd⟩ |
        ⟨f, x, -, -, rfl⟩
      · exact hold _ ha hwait
      · apply hold a ha
        by_cases hpc : a.pc = .blocked
        · exact .inr hpc
        · rwa [Adder.wake_eq_self hpc] at hwait
      · by_cases hpc : a.pc = .wait
        · exact hold a ha (.inl hpc)
        · obtain ⟨hw, hb⟩ := threadpoolAdd_awake hadd hs hpc
          exact absurd hwait (by simp [hw, hb])
      · simp at hwait

/-- A call that has returned executes no statement any more. -/
theorem returned_of_run {h h' : History} {s s' : State} (hrun : (threadpool c m).Run h s)
    {i : ℕ} {a : Adder} (ha : s.adders[i]? = some a) (hpc : a.pc = .returned)
    (hrun' : (threadpool c m).Run (h ++ h') s') :
    s'.adders[i]? = some a ∧ ∀ e ∈ h', ∀ choice, e.label ≠ .add i choice := by
  refine System.Run.after (J := fun g s => s.adders[i]? = some a ∧
    ∀ e ∈ g, ∀ choice, e.label ≠ .add i choice) (fun s₁ h₁ => ?_) ?_ hrun'
  · rw [System.Run.end_unique h₁ hrun]
    exact ⟨ha, by simp⟩
  · intro g s₁ l s₂ _ hstep ih
    obtain ⟨ha₁, hnone⟩ := ih
    have hstepped := stepped_of_run hstep
    have hl : ∀ choice, l ≠ .add i choice := by
      rintro choice rfl
      cases hstepped with
      | add ha₂ hadd _ =>
        obtain rfl := Option.some.inj (ha₁.symm.trans ha₂)
        simp [threadpoolAdd, hpc] at hadd
    have hx : s₁.thread (.adder i) = some (.add a) := by simp [State.thread, ha₁]
    have hlt : l.thread ≠ some (.adder i) := by
      cases l with
      | add j choice =>
        intro hj
        obtain rfl : j = i := by simpa [Label.thread] using hj
        exact hl choice rfl
      | _ => simp [Label.thread]
    have hkept := hstepped.keeps hlt hx (by simp [Local.isBlocked, Adder.isBlocked, hpc])
    refine ⟨by simpa [State.thread] using hkept, fun e he => ?_⟩
    rcases List.mem_append.mp he with hmem | hlast
    · exact hnone e hmem
    · rw [List.mem_singleton.mp hlast]
      exact hl

/-- What `threadpool_destroy` knows when it frees the pool. -/
theorem closing_of_freesPool {h : History} {e : Event State Label}
    (hrun : (threadpool c m).Run h e.pre) (he : freesPool e) : Closing c m e.pre := by
  refine ⟨⟨h, hrun⟩, ?_, ?_⟩
  · rcases shutdown_of_run hrun with hpc | hpc | hs
    · rw [he.2] at hpc
      cases hpc
    · rw [he.2] at hpc
      cases hpc
    · exact hs
  · have hjoined := joined_of_run hrun
    rw [Joined, he.2] at hjoined
    exact hjoined.1

/-- A call that neither sleeps nor has returned can go on. -/
theorem exists_add_step {h : History} {s : State} (hs : Closing c m s)
    (hrun : (threadpool c m).Run h s) {i : ℕ} {a : Adder} (ha : s.adders[i]? = some a)
    (hblocked : a.pc ≠ .blocked) (hreturned : a.pc ≠ .returned) :
    ∃ h' s', (threadpool c m).Run (h ++ h') s' ∧ ∃ e ∈ h', ∃ choice, e.label = .add i choice := by
  have hx : s.thread (.adder i) = some (.add a) := by simp [State.thread, ha]
  obtain ⟨s₁, p, y, e, hlead, hx₁, hexe⟩ := hs.exists_statement hx (by simp)
    (by simpa [Local.isBlocked, Adder.isBlocked] using hblocked)
    (by simpa [Local.isDone] using hreturned)
  obtain ⟨l, s₂, hstep, hl, -, -⟩ := hexe.exists_step hx₁ (by simp)
  obtain ⟨h', hrun'⟩ := hrun.leads hlead
  have hrun₂ := hrun'.step hstep
  rw [List.append_assoc] at hrun₂
  refine ⟨_, s₂, hrun₂, ⟨s₁, l, s₂⟩, by simp, ?_⟩
  cases l with
  | add j choice =>
    obtain rfl : j = i := by simpa [Label.thread] using hl
    exact ⟨choice, rfl⟩
  | _ => simp [Label.thread] at hl

/-- **Which calls destruction leaves behind.**  Line 269 is safe for the calls of
`threadpool_add` if and only if every call that had begun before line 259 has returned. -/
theorem strands_no_call_iff (c : Config) (m : Memory) (h : History) (e : Event State Label)
    (s : State) (hrun : (threadpool c m).Run (h ++ [e]) s) (he : freesPool e) :
    StrandsNoCall c m h e ↔
      ∀ i a, begunBefore h i → e.pre.adders[i]? = some a → a.pc = .returned := by
  obtain ⟨hpre, hstep, rfl⟩ := hrun.of_snoc
  change step e.pre e.label = some e.post at hstep
  have hclosing := closing_of_freesPool hpre he
  have hkeeps : ∀ (i : ℕ) (a : Adder), e.pre.adders[i]? = some a → a.pc ≠ .blocked →
      e.post.adders[i]? = some a := by
    intro i a ha hpc
    have hnone : e.label.thread ≠ some (.adder i) := by
      simp [he.1, Label.thread]
    have hx : e.pre.thread (.adder i) = some (.add a) := by simp [State.thread, ha]
    have hkept := (stepped_of_step hstep).keeps hnone hx
      (by simpa [Local.isBlocked, Adder.isBlocked] using hpc)
    simpa [State.thread] using hkept
  constructor
  · intro hsafe i a hbegun ha
    by_contra hreturned
    have hblocked : a.pc ≠ .blocked := by
      simpa [Adder.isBlocked] using hsafe.awake a (List.mem_of_getElem? ha)
    -- The call can be given its next statement, which uses the freed pool.
    obtain ⟨h', s', hrun', e', he', choice, hlabel⟩ := exists_add_step
      (hclosing.after_step hstep) hrun (hkeeps i a ha hblocked) hblocked hreturned
    exact hsafe.untouched h' s' hrun' e' he' i choice hbegun hlabel
  · intro hreturned
    constructor
    · intro a ha
      by_contra hb
      have hpc : a.pc = .blocked := by simpa [Adder.isBlocked] using hb
      obtain ⟨i, hi⟩ := List.getElem?_of_mem ha
      have hbegun := begunBefore_of_waits hpre hclosing.shutdown i a hi (.inr hpc)
      have hret := hreturned i a hbegun hi
      rw [hpc] at hret
      cases hret
    · intro h' s' hrun' e' he' i choice hbegun
      have hi := List.getElem?_eq_getElem (lt_length_of_begunBefore hpre hbegun)
      have hret := hreturned i _ hbegun hi
      have hpost := hkeeps i _ hi (by simp [hret])
      exact (returned_of_run hrun hpost hret hrun').2 e' he' choice

/-- A call returns, the pool is destroyed, and it is freed. -/
theorem strands_no_call_after_return :
    ∃ h e s, (threadpool ⟨1, 1, 1⟩ .cleared).Run (h ++ [e]) s ∧ freesPool e ∧
      e.pre.adders.length = 1 ∧ StrandsNoCall ⟨1, 1, 1⟩ .cleared h e := by
  obtain ⟨h, s, hrun, hP⟩ := exists_run_of_schedule ⟨1, 1, 1⟩ .cleared
    (addSchedule 0 1 1 ++ List.replicate 2 .destroy ++ [.adjust false 0] ++
      List.replicate 4 (.work 0) ++ List.replicate 5 .destroy)
    (fun h _ => h.any fun e => decide (e.label = .destroy) && decide (e.pre.destroy.pc = .free) &&
      decide (e.pre.adders.length = 1) &&
      e.pre.adders.all fun (a : Adder) => decide (a.pc = .returned)) (by decide +kernel)
  simp only [List.any_eq_true, Bool.and_eq_true, decide_eq_true_eq, List.all_eq_true] at hP
  obtain ⟨e, he, ⟨⟨hlabel, hpc⟩, hlen⟩, hreturned⟩ := hP
  obtain ⟨h₀, -, hrun₀, hstep⟩ := hrun.of_mem he
  have hrun₁ := hrun₀.step hstep
  refine ⟨h₀, e, _, hrun₁, ⟨hlabel, hpc⟩, hlen,
    (strands_no_call_iff _ _ h₀ e _ hrun₁ ⟨hlabel, hpc⟩).2 fun i a _ ha => ?_⟩
  exact hreturned a (List.mem_of_getElem? ha)

/-- A call sleeps on the full queue, the only worker leaves without taking the task, and the
pool is freed under the call. -/
theorem destroy_strands_call :
    ¬ ∀ (c : Config) (m : Memory) (h : History) (e : Event State Label) (s : State),
      0 < c.threadMinNum → c.threadMinNum ≤ c.threadMaxNum → 1 ≤ c.queueMaxSize →
      (threadpool c m).Run (h ++ [e]) s → freesPool e → StrandsNoCall c m h e := by
  intro hclaim
  obtain ⟨h, s, hrun, hP⟩ := exists_run_of_schedule ⟨1, 1, 1⟩ .cleared
    (addSchedule 0 1 1 ++ [.call 1 2] ++ List.replicate 3 (.add 1 0) ++
      List.replicate 2 .destroy ++ [.adjust false 0] ++ List.replicate 2 .destroy ++
      List.replicate 4 (.work 0) ++ List.replicate 3 .destroy)
    (fun h _ => h.any fun e => decide (e.label = .destroy) && decide (e.pre.destroy.pc = .free) &&
      e.pre.adders.any Adder.isBlocked) (by decide +kernel)
  simp only [List.any_eq_true, Bool.and_eq_true, decide_eq_true_eq] at hP
  obtain ⟨e, he, ⟨hlabel, hpc⟩, a, ha, hsleeps⟩ := hP
  obtain ⟨h₀, -, hrun₀, hstep⟩ := hrun.of_mem he
  have hsafe := hclaim ⟨1, 1, 1⟩ .cleared h₀ e e.post (by decide) (by decide) (by decide)
    (hrun₀.step hstep) ⟨hlabel, hpc⟩
  rw [hsafe.awake a ha] at hsleeps
  cases hsleeps

end LinuxExercise.ThreadPool
