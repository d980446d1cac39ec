import LinuxExercise.Framework.Threads
import LinuxExercise.ThreadPool.Exclusion

/-!
# The worker threads: who is created, who terminates, who has a slot

Three facts about the set of worker threads that need no mutual exclusion, so they hold in
every run, through shutdown and after a call has executed line 123.

* `noRetire_of_run`: `pthread_alive_num` never leaves the value `thread_min_num` it starts
  with, because the growth loop does not raise it; so the test of line 166 never succeeds and
  no worker leaves through the retirement branch.
* `workers_length_of_run`: the threads ever created are the initial ones and one for each
  execution of line 225.
* `slotInv_of_run`: every live worker has its id in a slot of `threads`, since the growth loop
  only overwrites slots of threads that are not alive.
-/

namespace LinuxExercise.ThreadPool

/-! ## Counting workers -/

/-- The step is the `pthread_create` of line 225. -/
def creates (s : State) : Label → Bool
  | .adjust _ _ => decide (s.adjust.pc = .create)
  | _ => false

/-- The step is the `pthread_create` of line 225. -/
def isGrowth (e : Event State Label) : Bool := creates e.pre e.label

theorem WorkersAfter.countP_eq {ws ws' : List Worker} {e : Effect} (h : WorkersAfter ws e ws')
    {q : Worker → Bool} (hq : ∀ w, q w.wake = q w) :
    ws'.countP q = ws.countP q + if e = .create ∧ q .fresh = true then 1 else 0 := by
  cases h with
  | @woken i w hw _ =>
    have hset := countP_set_add (p := q) (b := w.wake) hw
    rw [hq w] at hset
    simpa using hset
  | nobody => simp
  | all => simp [countP_map_of_eq hq]
  | created => simp [List.countP_append, List.countP_singleton]
  | same _ _ hne => simp [hne]

/-- How a step changes a count of workers that wake-ups do not see. -/
theorem Stepped.countP {s s' : State} {l : Label} (h : Stepped s l s') {q : Worker → Bool}
    (hq : ∀ w, q w.wake = q w) :
    (∃ i w v e, l = .work i ∧ s.workers[i]? = some w ∧
      threadpoolThread (.worker i) s.taken.length s.pool w = some (s'.pool, v, e) ∧
      s'.workers.countP q + (if q w then 1 else 0) =
        s.workers.countP q + (if q v then 1 else 0)) ∨
    ((∀ i, l ≠ .work i) ∧ s'.workers.countP q =
      s.workers.countP q + if creates s l = true ∧ q .fresh = true then 1 else 0) := by
  cases h with
  | call | wakeAdd => exact .inr ⟨by simp, by simp [creates, State.setAdder]⟩
  | add ha hadd happ =>
    refine .inr ⟨by simp, ?_⟩
    rw [(applied_of_apply happ).workers.countP_eq hq,
      if_neg fun hc => (threadpoolAdd_effect hadd).2.2.1 hc.1]
    rfl
  | @work i w v p e _ hw hwork happ =>
    have hap := applied_of_apply happ
    have hpool : s'.pool = p := hap.pool
    refine .inl ⟨i, w, v, e, rfl, hw, hpool ▸ hwork, ?_⟩
    rw [hap.workers.countP_eq hq, if_neg fun hc => (threadpoolThread_effect hwork).2.2.1 hc.1]
    exact countP_set_add hw
  | adjust hadj happ =>
    refine .inr ⟨by simp, ?_⟩
    rw [(applied_of_apply happ).workers.countP_eq hq]
    simp [creates, adjustThread_create_iff hadj]
  | destroy hdes happ =>
    refine .inr ⟨by simp, ?_⟩
    have hne := threadpoolDestroy_effect hdes
    rw [(applied_of_apply happ).workers.countP_eq hq,
      if_neg fun hc => by rcases hne with h | h | h <;> rw [h] at hc <;> cases hc.1]
    rfl
  | @wakeWork i w hw _ =>
    refine .inr ⟨by simp, ?_⟩
    have hset := countP_set_add (p := q) (b := w.wake) hw
    rw [hq w] at hset
    simpa [creates, State.setWorker] using hset

/-- The threads ever created: the initial ones and one for each execution of line 225. -/
theorem workers_length_of_run {c : Config} {m : Memory} {h : History} {s : State}
    (hrun : (threadpool c m).Run h s) :
    s.workers.length = c.threadMinNum + h.countP isGrowth := by
  refine hrun.ledger (J := fun h s => s.workers.length = c.threadMinNum + h.countP isGrowth) ?_ ?_
  · rintro s rfl
    simp [created]
  · intro h s l s' _ hstep ih
    have hlen : ∀ ws : List Worker, ws.countP (fun _ => true) = ws.length := by simp
    rw [List.countP_append, List.countP_singleton, ← add_assoc, ← ih]
    rcases (stepped_of_run hstep).countP (q := fun _ => true) fun _ => rfl with
      ⟨i, w, v, e, rfl, -, -, hcount⟩ | ⟨-, hcount⟩
    · simpa [hlen, isGrowth, creates] using hcount
    · cases hc : creates s l <;> simpa [hlen, isGrowth, hc] using hcount

theorem Stepped.workers_length {s s' : State} {l : Label} (h : Stepped s l s') :
    s.workers.length ≤ s'.workers.length := by
  have hlen : ∀ ws : List Worker, ws.countP (fun _ => true) = ws.length := by simp
  rcases h.countP (q := fun _ => true) fun _ => rfl with ⟨i, w, v, e, -, -, -, hcount⟩ |
    ⟨-, hcount⟩
  · rw [hlen, hlen] at hcount
    simp only [if_true] at hcount
    omega
  · rw [hlen, hlen] at hcount
    omega

/-- A step leaves the slots alone, or is line 225 and puts the id of the new worker into the slot
of the scan. -/
theorem Stepped.threads {s s' : State} {l : Label} (h : Stepped s l s') :
    s'.pool.threads = s.pool.threads ∨
    creates s l = true ∧ s'.pool.threads = s.pool.threads.set s.adjust.i (tidOf s.workers.length) ∧
      s.workers.length < s'.workers.length := by
  cases h with
  | call | wakeAdd | wakeWork => exact .inl rfl
  | add _ hadd happ =>
    left
    rw [(applied_of_apply happ).pool, State.setAdder, threadpoolAdd_frame hadd]
  | work _ hwork happ =>
    left
    rw [(applied_of_apply happ).pool, State.setWorker, threadpoolThread_frame hwork]
  | destroy hdes happ =>
    left
    rw [(applied_of_apply happ).pool, (threadpoolDestroy_frame hdes).1]
  | @adjust answer choice n p e _ hadj happ =>
    have hap := applied_of_apply happ
    by_cases hpc : s.adjust.pc = .create
    · right
      simp only [adjustThread, hpc, Option.some.injEq, Prod.mk.injEq] at hadj
      obtain ⟨rfl, rfl, rfl⟩ := hadj
      refine ⟨by simp [creates, hpc], by rw [hap.pool], ?_⟩
      obtain rfl := Option.some.inj happ
      simp
    · left
      rw [hap.pool]
      exact adjustThread_threads hadj hpc

/-! ## No worker retires -/

/-- `pthread_alive_num` is where it started and no worker is past the test of line 166. -/
structure NoRetire (s : State) : Prop where
  alive : s.pool.pthreadAliveNum = s.pool.pthreadMinNum
  workers : ∀ (i : ℕ) (w : Worker), s.workers[i]? = some w →
    w.pc ≠ .decAlive ∧ w.pc ≠ .exitRetire

theorem threadpoolThread_noRetire {me : Thread} {n : ℕ} {p p' : Pool} {w w' : Worker} {e : Effect}
    (h : threadpoolThread me n p w = some (p', w', e)) (hp : p.pthreadAliveNum = p.pthreadMinNum)
    (hdec : w.pc ≠ .decAlive) (hexit : w.pc ≠ .exitRetire) :
    p'.pthreadAliveNum = p.pthreadAliveNum ∧ w'.pc ≠ .decAlive ∧ w'.pc ≠ .exitRetire := by
  obtain ⟨pc, task, number⟩ := w
  cases pc <;> simp only [threadpoolThread] at h
  case decAlive => exact absurd rfl hdec
  case ifAlive =>
    rw [if_neg (by omega)] at h
    cases h
    exact ⟨rfl, by simp, by simp⟩
  all_goals try split at h
  all_goals cases h
  all_goals exact ⟨rfl, by simp, by simp⟩

theorem noRetire_of_run {c : Config} {m : Memory} {h : History} {s : State}
    (hrun : (threadpool c m).Run h s) : NoRetire s := by
  refine hrun.invariant ?_ ?_
  · rintro s rfl
    refine ⟨rfl, fun i w hw => ?_⟩
    simp only [created, List.getElem?_replicate] at hw
    split at hw
    · obtain rfl := Option.some.inj hw
      simp [Worker.fresh]
    · cases hw
  · intro s l s' _ hstep hinv
    have hstepped := stepped_of_run hstep
    have hmin : s'.pool.pthreadMinNum = s.pool.pthreadMinNum :=
      congrArg Config.threadMinNum hstepped.config
    refine ⟨?_, fun i v hv => ?_⟩
    · rw [hmin, ← hinv.alive]
      cases hstepped with
      | call | wakeAdd | wakeWork => rfl
      | add _ hadd happ =>
        rw [(applied_of_apply happ).pool, State.setAdder, threadpoolAdd_frame hadd]
      | @work i w w' p e _ hw hwork happ =>
        obtain ⟨hdec, hexit⟩ := hinv.workers i w hw
        rw [(applied_of_apply happ).pool]
        exact (threadpoolThread_noRetire hwork hinv.alive hdec hexit).1
      | adjust hadj happ => rw [(applied_of_apply happ).pool, adjustThread_frame hadj]
      | destroy hdes happ => rw [(applied_of_apply happ).pool, (threadpoolDestroy_frame hdes).1]
    · rcases hstepped.worker hv with ⟨w, hw, rfl | rfl⟩ | ⟨w, p, e, rfl, hw, -, hwork⟩ |
        ⟨-, -, -, rfl⟩
      · exact hinv.workers i v hw
      · have hpc := hinv.workers i w hw
        unfold Worker.wake
        split
        · simp
        · exact hpc
      · obtain ⟨hdec, hexit⟩ := hinv.workers i w hw
        exact (threadpoolThread_noRetire hwork hinv.alive hdec hexit).2
      · simp [Worker.fresh]

/-- While the pool is running no worker has terminated. -/
theorem isLive_of_running {c : Config} {m : Memory} {h : History} {s : State}
    (hrun : (threadpool c m).Run h s) (hshut : s.pool.shutdown = false) {i : ℕ} {w : Worker}
    (hw : s.workers[i]? = some w) : w.isLive = true := by
  have key : ∀ (j : ℕ) (v : Worker), s.workers[j]? = some v →
      v.pc ≠ .exitShutdown ∧ v.pc ≠ .exited := by
    refine hrun.invariant_on (C := fun s => s.pool.shutdown = false)
      (I := fun s => ∀ (j : ℕ) (v : Worker), s.workers[j]? = some v →
        v.pc ≠ .exitShutdown ∧ v.pc ≠ .exited)
      (fun s l s' hstep => (stepped_of_run hstep).running) ?_ ?_ hshut
    · rintro s rfl - j v hv
      simp only [created, List.getElem?_replicate] at hv
      split at hv
      · obtain rfl := Option.some.inj hv
        simp [Worker.fresh]
      · cases hv
    · intro s l s' hreach hstep hs _ hinv j v hv
      obtain ⟨h, hrun⟩ := hreach
      rcases (stepped_of_run hstep).worker hv with ⟨w, hw, rfl | rfl⟩ |
        ⟨w, p, e, rfl, hw, -, hwork⟩ | ⟨-, -, -, rfl⟩
      · exact hinv j v hw
      · have hpc := hinv j w hw
        unfold Worker.wake
        split
        · simp
        · exact hpc
      · obtain ⟨hsd, -⟩ := hinv j w hw
        obtain ⟨-, hexit⟩ := (noRetire_of_run hrun).workers j w hw
        obtain ⟨pc, task, number⟩ := w
        cases pc <;> simp only [threadpoolThread] at hwork
        case exitRetire => exact absurd rfl hexit
        case exitShutdown => exact absurd rfl hsd
        case ifShutdown =>
          rw [hs] at hwork
          cases hwork
          simp
        all_goals try split at hwork
        all_goals cases hwork
        all_goals simp
      · simp [Worker.fresh]
  simpa [Worker.isLive] using (key i w hw).2

/-! ## Every live worker has a slot -/

@[simp] theorem Worker.wake_isLive (w : Worker) : w.wake.isLive = w.isLive := by
  by_cases h : w.pc = .blocked
  · simp [Worker.wake, Worker.isLive, h]
  · rw [Worker.wake_eq_self h]

theorem tidOf_injective : Function.Injective tidOf := fun i j h => by
  simpa [tidOf] using h

/-- A worker that is live after a step was live before it or has just been created. -/
theorem Stepped.live {s s' : State} {l : Label} (h : Stepped s l s') {i : ℕ} {v : Worker}
    (hv : s'.workers[i]? = some v) (hlive : v.isLive = true) :
    (∃ w, s.workers[i]? = some w ∧ w.isLive = true) ∨
      (creates s l = true ∧ i = s.workers.length) := by
  rcases h.worker hv with ⟨w, hw, rfl | rfl⟩ | ⟨w, p, e, rfl, hw, -, hwork⟩ |
    ⟨⟨answer, choice, rfl⟩, hpc, hi, -⟩
  · exact .inl ⟨v, hw, hlive⟩
  · exact .inl ⟨w, hw, by simpa using hlive⟩
  · refine .inl ⟨w, hw, ?_⟩
    obtain ⟨pc, task, number⟩ := w
    cases pc <;> first | rfl | cases hwork
  · exact .inr ⟨by simpa [creates] using hpc, hi⟩

/-- Every live worker has its id in a slot; a slot that is about to be overwritten does not
belong to a live worker. -/
structure SlotInv (s : State) : Prop where
  length : s.pool.threads.length = s.pool.pthreadMaxNum
  slot : ∀ (i : ℕ) (w : Worker), s.workers[i]? = some w → w.isLive = true →
    ∃ j < s.pool.threads.length, s.pool.threads[j]? = some (tidOf i)
  scan : s.adjust.pc = .ifSlot ∨ s.adjust.pc = .create → s.adjust.i < s.pool.threads.length
  dead : s.adjust.pc = .create → ∀ (i : ℕ) (w : Worker), s.workers[i]? = some w →
    w.isLive = true → s.pool.threads[s.adjust.i]? ≠ some (tidOf i)

@[simp] theorem startThreads_length (ts : List ℕ) (n : ℕ) :
    (startThreads ts n).length = ts.length := by
  induction n with
  | zero => rfl
  | succ n ih => rw [startThreads, List.length_set, ih]

theorem startThreads_getElem? {ts : List ℕ} {n i : ℕ} (hi : i < n) (hn : n ≤ ts.length) :
    (startThreads ts n)[i]? = some (tidOf i) := by
  induction n with
  | zero => omega
  | succ n ih =>
    rw [startThreads, List.getElem?_set, startThreads_length]
    by_cases hin : n = i
    · rw [if_pos hin, if_pos (by omega), hin]
    · rw [if_neg hin]
      exact ih (by omega) (by omega)

theorem created_slotInv {c : Config} {m : Memory} (hle : c.threadMinNum ≤ c.threadMaxNum) :
    SlotInv (created c m) := by
  have hlen : (created c m).pool.threads.length = c.threadMaxNum := by
    simp [created, threadpoolCreate]
  refine ⟨hlen, fun i w hw _ => ?_, by simp [created], by simp [created]⟩
  have hi : i < c.threadMinNum := by
    simp only [created, List.getElem?_replicate] at hw
    by_contra hge
    rw [if_neg hge] at hw
    cases hw
  exact ⟨i, by rw [hlen]; omega, startThreads_getElem? hi (by simpa using hle)⟩

/-- `pthread_is_alive` recognises the id of a live worker. -/
theorem pthreadIsAlive_of_live {s : State} {i : ℕ} {w : Worker} (hw : s.workers[i]? = some w)
    (hlive : w.isLive = true) (answer : Bool) : pthreadIsAlive s (tidOf i) answer = true := by
  simp [pthreadIsAlive, State.isLiveTid, tidOf, hw, hlive]

/-- A step that creates no worker leaves only workers live that were live before. -/
theorem Stepped.live_of_not_creates {s s' : State} {l : Label} (h : Stepped s l s')
    (hcreates : creates s l = false) {i : ℕ} {v : Worker} (hv : s'.workers[i]? = some v)
    (hlive : v.isLive = true) : ∃ w, s.workers[i]? = some w ∧ w.isLive = true := by
  rcases h.live hv hlive with hold | ⟨hc, -⟩
  · exact hold
  · rw [hcreates] at hc
    cases hc

/-- Outside `adjust_thread` neither the slots nor the scan change. -/
theorem Stepped.slotInv_of_unchanged {s s' : State} {l : Label} (h : Stepped s l s')
    (hinv : SlotInv s) (hthreads : s'.pool.threads = s.pool.threads)
    (hadjust : s'.adjust = s.adjust) (hcreates : creates s l = false) : SlotInv s' := by
  have hmax : s'.pool.pthreadMaxNum = s.pool.pthreadMaxNum :=
    congrArg Config.threadMaxNum h.config
  refine ⟨by rw [hthreads, hmax, hinv.length], fun i v hv hlive => ?_, ?_, ?_⟩
  · obtain ⟨w, hw, hwl⟩ := h.live_of_not_creates hcreates hv hlive
    rw [hthreads]
    exact hinv.slot i w hw hwl
  · rw [hthreads, hadjust]
    exact hinv.scan
  · intro hpc i v hv hlive
    rw [hadjust] at hpc
    obtain ⟨w, hw, hwl⟩ := h.live_of_not_creates hcreates hv hlive
    rw [hthreads, hadjust]
    exact hinv.dead hpc i w hw hwl

/-- Line 225: the slot of the scan gets the id of the new worker. -/
theorem Stepped.slotInv_of_create {s s' : State} {answer alive : Bool} {choice tid : ℕ}
    {m : Adjust} {p : Pool} {e : Effect} (h : Stepped s (.adjust answer choice) s')
    (hinv : SlotInv s) (htid : tid = tidOf s.workers.length)
    (hadj : adjustThread alive tid s.pool s.adjust = some (p, m, e)) (hpool : s'.pool = p)
    (hadjust : s'.adjust = m) (hpc : s.adjust.pc = .create) : SlotInv s' := by
  have hmax : s'.pool.pthreadMaxNum = s.pool.pthreadMaxNum :=
    congrArg Config.threadMaxNum h.config
  have hscan := hinv.scan (.inr hpc)
  simp only [adjustThread, hpc, Option.some.injEq, Prod.mk.injEq] at hadj
  obtain ⟨rfl, rfl, rfl⟩ := hadj
  rw [hpool] at hmax
  refine ⟨by rw [hpool, List.length_set]; exact hinv.length, fun i v hv hlive => ?_, ?_, ?_⟩
  · rw [hpool]
    rcases h.live hv hlive with ⟨w, hw, hwl⟩ | ⟨-, rfl⟩
    · obtain ⟨j, hj, hslot⟩ := hinv.slot i w hw hwl
      have hne : s.adjust.i ≠ j := by
        rintro rfl
        exact hinv.dead hpc i w hw hwl hslot
      exact ⟨j, by simpa using hj, by simpa [hne] using hslot⟩
    · exact ⟨s.adjust.i, by simpa using hscan, by simp [hscan, htid]⟩
  · rw [hadjust]
    simp
  · rw [hadjust]
    simp

/-- The rest of `adjust_thread`: line 224 lets no slot of a live worker through. -/
theorem Stepped.slotInv_of_scan {s s' : State} {answer : Bool} {choice tid : ℕ} {m : Adjust}
    {p : Pool} {e : Effect} (h : Stepped s (.adjust answer choice) s') (hinv : SlotInv s)
    (hadj : adjustThread (pthreadIsAlive s (s.pool.threads.getD s.adjust.i 0) answer) tid s.pool
      s.adjust = some (p, m, e))
    (hpool : s'.pool = p) (hadjust : s'.adjust = m) (hpc : s.adjust.pc ≠ .create) :
    SlotInv s' := by
  have hmax : s'.pool.pthreadMaxNum = s.pool.pthreadMaxNum :=
    congrArg Config.threadMaxNum h.config
  have hcreates : creates s (.adjust answer choice) = false := by simp [creates, hpc]
  have hthreads : p.threads = s.pool.threads := adjustThread_threads hadj hpc
  refine ⟨by rw [hpool, hthreads, ← hpool, hmax, hinv.length], fun i v hv hlive => ?_, ?_, ?_⟩
  · obtain ⟨w, hw, hwl⟩ := h.live_of_not_creates hcreates hv hlive
    rw [hpool, hthreads]
    exact hinv.slot i w hw hwl
  · rw [hpool, hthreads, hadjust]
    intro hm
    have hlen := hinv.length
    obtain ⟨hi, hfrom⟩ := adjustThread_scan hadj hpc hm
    rw [hi]
    rcases hfrom with hif | hlt
    · exact hinv.scan (.inl hif)
    · omega
  · intro hm i v hv hlive
    rw [hadjust] at hm
    obtain ⟨w, hw, hwl⟩ := h.live_of_not_creates hcreates hv hlive
    rw [hpool, hthreads, hadjust]
    obtain ⟨hi, hfree⟩ := adjustThread_ifSlot hadj hm
    rw [hi]
    intro hslot
    have hget : s.pool.threads.getD s.adjust.i 0 = tidOf i := by simp [List.getD, hslot]
    rw [hget, pthreadIsAlive_of_live hw hwl] at hfree
    simp [tidOf] at hfree

theorem Stepped.slotInv {s s' : State} {l : Label} (h : Stepped s l s') (hinv : SlotInv s) :
    SlotInv s' := by
  cases hstep : h with
  | call | wakeAdd | wakeWork => exact h.slotInv_of_unchanged hinv rfl rfl rfl
  | add _ hadd happ =>
    have hap := applied_of_apply happ
    refine h.slotInv_of_unchanged hinv ?_ hap.adjust rfl
    rw [hap.pool, State.setAdder, threadpoolAdd_frame hadd]
  | work _ hwork happ =>
    have hap := applied_of_apply happ
    refine h.slotInv_of_unchanged hinv ?_ hap.adjust rfl
    rw [hap.pool, State.setWorker, threadpoolThread_frame hwork]
  | destroy hdes happ =>
    have hap := applied_of_apply happ
    refine h.slotInv_of_unchanged hinv ?_ hap.adjust rfl
    rw [hap.pool, (threadpoolDestroy_frame hdes).1]
  | adjust hadj happ =>
    have hap := applied_of_apply happ
    by_cases hpc : s.adjust.pc = .create
    · exact h.slotInv_of_create hinv rfl hadj hap.pool hap.adjust hpc
    · exact h.slotInv_of_scan hinv hadj hap.pool hap.adjust hpc

theorem slotInv_of_run {c : Config} {m : Memory} (hle : c.threadMinNum ≤ c.threadMaxNum)
    {h : History} {s : State} (hrun : (threadpool c m).Run h s) : SlotInv s := by
  refine hrun.invariant ?_ ?_
  · rintro s rfl
    exact created_slotInv hle
  · exact fun s l s' _ hstep => (stepped_of_run hstep).slotInv

/-- There are never more live workers than slots. -/
theorem live_le_max {c : Config} {m : Memory} (hle : c.threadMinNum ≤ c.threadMaxNum)
    {h : History} {s : State} (hrun : (threadpool c m).Run h s) :
    s.workers.countP Worker.isLive ≤ c.threadMaxNum := by
  have hinv := slotInv_of_run hle hrun
  have hmax : s.pool.pthreadMaxNum = c.threadMaxNum :=
    congrArg Config.threadMaxNum (config_of_run hrun)
  calc s.workers.countP Worker.isLive
      ≤ s.pool.threads.length := countP_le_of_slots tidOf_injective hinv.slot
    _ = c.threadMaxNum := hinv.length.trans hmax

end LinuxExercise.ThreadPool
