import LinuxExercise.ThreadPool.Workers

/-!
# Who is still running when the pool is freed

`threadpool_destroy` joins the manager and then the threads in the first `thread_min_num`
slots, so at line 269 exactly these are known to have terminated (`joined_of_run`).  Every
live worker has a slot (`slotInv_of_run`); a worker that the growth loop put into a slot from
`thread_min_num` on is not joined, and whether it is still running is up to the scheduler.
`collects_iff_unjoined_exited` makes this precise.
-/

namespace LinuxExercise.ThreadPool

/-! ## What destruction should guarantee -/

/-- The step is line 269. -/
def freesPool (e : Event State Label) : Prop :=
  e.label = .destroy ∧ e.pre.destroy.pc = .free

/-- The step is a statement of a worker other than line 200, so one that uses the pool. -/
def usesPool (e : Event State Label) : Prop :=
  ∃ i w, e.label = .work i ∧ e.pre.workers[i]? = some w ∧ w.pc ≠ .call ∧ w.pc ≠ .running

/-- When the pool is freed every worker ever created has terminated, and no worker uses the
pool afterwards. -/
structure CollectsWorkers (h : History) : Prop where
  terminated : ∀ e ∈ h, freesPool e → ∀ w ∈ e.pre.workers, w.isLive = false
  unused : ∀ e ∈ h, e.pre.poolFreed = true → ¬ usesPool e

/-- When the pool is freed, every worker in a slot that `threadpool_destroy` does not join has
terminated. -/
def UnjoinedExited (h : History) : Prop :=
  ∀ e ∈ h, freesPool e → ∀ (i j : ℕ) (w : Worker), e.pre.workers[i]? = some w →
    e.pre.pool.pthreadMinNum ≤ j → e.pre.pool.threads[j]? = some (tidOf i) → w.isLive = false

/-! ## What stays terminated -/

theorem isDoneTid_tidOf {s : State} {i : ℕ} :
    s.isDoneTid (tidOf i) = true ↔ ∃ w, s.workers[i]? = some w ∧ w.isLive = false := by
  simp [State.isDoneTid, tidOf, Option.any_eq_true]

/-- A terminated worker stays so. -/
theorem Stepped.isDoneTid {s s' : State} {l : Label} (h : Stepped s l s') {tid : ℕ}
    (hdone : s.isDoneTid tid = true) : s'.isDoneTid tid = true := by
  cases tid with
  | zero => cases hdone
  | succ i =>
    obtain ⟨w, hw, hexit⟩ := isDoneTid_tidOf.1 hdone
    have hlt : i < s.workers.length := (List.getElem?_eq_some_iff.mp hw).1
    have hlt' := hlt.trans_le h.workers_length
    refine isDoneTid_tidOf.2 ⟨_, List.getElem?_eq_getElem hlt', ?_⟩
    by_contra hlive
    rcases h.live (List.getElem?_eq_getElem hlt') (by simpa using hlive) with
      ⟨w', hw', hlive'⟩ | ⟨-, hi⟩
    · obtain rfl := Option.some.inj (hw.symm.trans hw')
      rw [hexit] at hlive'
      cases hlive'
    · omega

/-- Once the manager has returned nothing changes a slot and nobody is created. -/
theorem Stepped.managerDone {s s' : State} {l : Label} (h : Stepped s l s')
    (hdone : s.adjust.pc = .returned) :
    s'.adjust = s.adjust ∧ s'.pool.threads = s.pool.threads ∧ creates s l = false := by
  cases h with
  | call | wakeAdd | wakeWork => exact ⟨rfl, rfl, rfl⟩
  | add _ hadd happ =>
    have hap := applied_of_apply happ
    refine ⟨hap.adjust, ?_, rfl⟩
    rw [hap.pool, State.setAdder, threadpoolAdd_frame hadd]
  | work _ hwork happ =>
    have hap := applied_of_apply happ
    refine ⟨hap.adjust, ?_, rfl⟩
    rw [hap.pool, State.setWorker, threadpoolThread_frame hwork]
  | adjust hadj => simp [adjustThread, hdone] at hadj
  | destroy hdes happ =>
    have hap := applied_of_apply happ
    refine ⟨hap.adjust, ?_, rfl⟩
    rw [hap.pool, (threadpoolDestroy_frame hdes).1]

/-! ## What is known after the joins -/

/-- What `threadpool_destroy` has established, by where it is. -/
def Joined (s : State) : Prop :=
  match s.destroy.pc with
  | .idle | .setShutdown | .joinAdjust => True
  | .broadcast => s.adjust.pc = .returned
  | .joinWorkers => s.adjust.pc = .returned ∧
      ∀ j < s.destroy.i, s.isDoneTid (s.pool.threads.getD j 0) = true
  | .free | .returned => s.adjust.pc = .returned ∧
      ∀ j < s.pool.pthreadMinNum, s.isDoneTid (s.pool.threads.getD j 0) = true

/-- Steps of the other threads do not undo what `threadpool_destroy` has established. -/
theorem Stepped.joined_of_same {s s' : State} {l : Label} (h : Stepped s l s')
    (hdestroy : s'.destroy = s.destroy) (hinv : Joined s) : Joined s' := by
  have hmin : s'.pool.pthreadMinNum = s.pool.pthreadMinNum :=
    congrArg Config.threadMinNum h.config
  have slots : s.adjust.pc = .returned → s'.adjust.pc = .returned ∧
      ∀ j, s.isDoneTid (s.pool.threads.getD j 0) = true →
        s'.isDoneTid (s'.pool.threads.getD j 0) = true := by
    intro hret
    obtain ⟨hadjust, hthreads, -⟩ := h.managerDone hret
    refine ⟨by rw [hadjust, hret], fun j hj => ?_⟩
    rw [hthreads]
    exact h.isDoneTid hj
  unfold Joined at hinv ⊢
  rw [hdestroy, hmin]
  split at hinv
  case h_1 | h_2 | h_3 => trivial
  case h_4 => exact (slots hinv).1
  all_goals
    obtain ⟨hret, hjoined⟩ := hinv
    exact ⟨(slots hret).1, fun j hj => (slots hret).2 j (hjoined j hj)⟩

/-- A statement of `threadpool_destroy` establishes what comes after it. -/
theorem Stepped.joined_of_destroy {s s' : State} (h : Stepped s .destroy s') (hinv : Joined s) :
    Joined s' := by
  have hdone : ∀ tid, s.isDoneTid tid = true → s'.isDoneTid tid = true :=
    fun tid => h.isDoneTid
  cases h with
  | @destroy d p e _ hdes happ =>
    have hap := applied_of_apply happ
    have hpool : s'.pool = p := hap.pool
    have hdestroy : s'.destroy = d := hap.destroy
    have hadjust : s'.adjust = s.adjust := hap.adjust
    unfold Joined at hinv ⊢
    rw [hadjust, hdestroy, hpool]
    generalize s.destroy = d₀ at hdes hinv
    obtain ⟨pc, i⟩ := d₀
    cases pc <;> simp only [threadpoolDestroy] at hdes
    case idle | setShutdown =>
      cases hdes
      trivial
    case joinAdjust =>
      split at hdes
      · next hret =>
        cases hdes
        exact of_decide_eq_true hret
      · cases hdes
    case broadcast =>
      cases hdes
      exact ⟨hinv, fun j hj => absurd hj (Nat.not_lt_zero j)⟩
    case joinWorkers =>
      obtain ⟨hret, hjoined⟩ := hinv
      split at hdes
      · split at hdes
        · next hone =>
          cases hdes
          refine ⟨hret, fun j hj => hdone _ ?_⟩
          rcases Nat.lt_succ_iff_lt_or_eq.mp hj with hlt | rfl
          · exact hjoined j hlt
          · exact hone
        · cases hdes
      · next hge =>
        cases hdes
        refine ⟨hret, fun j hj => hdone _ (hjoined j ?_)⟩
        exact lt_of_lt_of_le hj (Nat.le_of_not_lt hge)
    case free =>
      cases hdes
      exact ⟨hinv.1, fun j hj => hdone _ (hinv.2 j hj)⟩
    case returned => cases hdes

theorem joined_of_run {c : Config} {m : Memory} {h : History} {s : State}
    (hrun : (threadpool c m).Run h s) : Joined s := by
  refine hrun.invariant ?_ ?_
  · rintro s rfl
    trivial
  · intro s l s' _ hstep hinv
    have hstepped := stepped_of_run hstep
    cases hstep' : hstepped with
    | call | wakeAdd | wakeWork => exact hstepped.joined_of_same rfl hinv
    | add _ _ happ | work _ _ happ | adjust _ happ =>
      exact hstepped.joined_of_same (applied_of_apply happ).destroy hinv
    | destroy => exact hstepped.joined_of_destroy hinv

/-! ## After line 269 -/

/-- Only line 269 frees the pool. -/
theorem Stepped.poolFreed {s s' : State} {l : Label} (h : Stepped s l s')
    (hfreed : s'.poolFreed = true) : s.poolFreed = true ∨ freesPool ⟨s, l, s'⟩ := by
  cases h with
  | call | wakeAdd | wakeWork => exact .inl hfreed
  | add _ hadd happ =>
    rw [(applied_of_apply happ).poolFreed] at hfreed
    exact .inl (by simpa [State.setAdder, (threadpoolAdd_effect hadd).2.2.2.1] using hfreed)
  | work _ hwork happ =>
    rw [(applied_of_apply happ).poolFreed] at hfreed
    exact .inl (by simpa [State.setWorker, (threadpoolThread_effect hwork).2.2.2.1] using hfreed)
  | adjust hadj happ =>
    rw [(applied_of_apply happ).poolFreed] at hfreed
    rcases adjustThread_effect hadj with rfl | rfl | rfl <;> exact .inl (by simpa using hfreed)
  | destroy hdes happ =>
    rw [(applied_of_apply happ).poolFreed] at hfreed
    simp only [Bool.or_eq_true, decide_eq_true_eq] at hfreed
    rcases hfreed with hfreed | rfl
    · exact .inl hfreed
    · refine .inr ⟨rfl, ?_⟩
      generalize s.destroy = d₀ at hdes
      obtain ⟨pc, i⟩ := d₀
      cases pc <;> simp only [threadpoolDestroy] at hdes
      all_goals repeat' split at hdes
      all_goals cases hdes
      rfl

/-- Once the pool is freed with every worker terminated, it stays that way. -/
theorem exited_of_freed {c : Config} {m : Memory} {h : History} {s : State}
    (hrun : (threadpool c m).Run h s)
    (hterm : ∀ e ∈ h, freesPool e → ∀ w ∈ e.pre.workers, w.isLive = false) :
    s.poolFreed = true → s.adjust.pc = .returned ∧ ∀ w ∈ s.workers, w.isLive = false := by
  revert hterm
  refine hrun.ledger (J := fun h s =>
    (∀ e ∈ h, freesPool e → ∀ w ∈ e.pre.workers, w.isLive = false) →
    s.poolFreed = true → s.adjust.pc = .returned ∧ ∀ w ∈ s.workers, w.isLive = false) ?_ ?_
  · rintro s rfl - hfreed
    cases hfreed
  · intro h s l s' hrun hstep ih hterm hfreed
    have hstepped := stepped_of_run hstep
    have hbefore : s.adjust.pc = .returned ∧ ∀ w ∈ s.workers, w.isLive = false := by
      rcases hstepped.poolFreed hfreed with hold | hfree
      · exact ih (fun e he => hterm e (List.mem_append_left _ he)) hold
      · have hjoined := joined_of_run hrun
        have hpc : s.destroy.pc = .free := hfree.2
        simp only [Joined, hpc] at hjoined
        refine ⟨hjoined.1, hterm ⟨s, l, s'⟩ (by simp) hfree⟩
    obtain ⟨hret, hall⟩ := hbefore
    obtain ⟨hadjust, -, hcreates⟩ := hstepped.managerDone hret
    refine ⟨by rw [hadjust, hret], fun v hv => ?_⟩
    by_contra hlive
    obtain ⟨i, hi⟩ := List.getElem?_of_mem hv
    rcases hstepped.live hi (by simpa using hlive) with ⟨w, hw, hwl⟩ | ⟨hc, -⟩
    · rw [hall w (List.mem_of_getElem? hw)] at hwl
      cases hwl
    · rw [hcreates] at hc
      cases hc

/-- **Which workers destruction waits for.**  A run collects its workers if and only if, when
the pool is freed, the workers in the slots from `thread_min_num` on have terminated by
themselves. -/
theorem collects_iff_unjoined_exited (c : Config) (m : Memory)
    (hle : c.threadMinNum ≤ c.threadMaxNum) (h : History) (s : State)
    (hrun : (threadpool c m).Run h s) : CollectsWorkers h ↔ UnjoinedExited h := by
  constructor
  · intro hcollects e he hfree i j w hw _ _
    exact hcollects.terminated e he hfree w (List.mem_of_getElem? hw)
  · intro hunjoined
    have hterm : ∀ e ∈ h, freesPool e → ∀ w ∈ e.pre.workers, w.isLive = false := by
      intro e he hfree w hw
      obtain ⟨h₀, -, hrun₀, -⟩ := hrun.of_mem he
      obtain ⟨i, hi⟩ := List.getElem?_of_mem hw
      by_contra hlive
      have hlive' : w.isLive = true := by simpa using hlive
      obtain ⟨j, hj, hslot⟩ := (slotInv_of_run hle hrun₀).slot i w hi hlive'
      rcases Nat.lt_or_ge j e.pre.pool.pthreadMinNum with hlt | hge
      · -- The slot has been joined.
        have hjoined := joined_of_run hrun₀
        simp only [Joined, hfree.2] at hjoined
        have hdone := hjoined.2 j hlt
        have hget : e.pre.pool.threads.getD j 0 = tidOf i := by simp [List.getD, hslot]
        rw [hget, isDoneTid_tidOf] at hdone
        obtain ⟨w', hw', hexit⟩ := hdone
        obtain rfl := Option.some.inj (hi.symm.trans hw')
        rw [hexit] at hlive'
        cases hlive'
      · rw [hunjoined e he hfree i j w hi hge hslot] at hlive'
        cases hlive'
    refine ⟨hterm, fun e he hfreed => ?_⟩
    rintro ⟨i, w, hl, hw, -, -⟩
    obtain ⟨h₀, hpre, hrun₀, hstep⟩ := hrun.of_mem he
    obtain ⟨-, hall⟩ := exited_of_freed hrun₀
      (fun e' he' => hterm e' (hpre.subset (List.mem_append_left _ he'))) hfreed
    have hexit : w.pc = .exited := by
      simpa [Worker.isLive] using hall w (List.mem_of_getElem? hw)
    -- A terminated worker has no statement left.
    change step e.pre e.label = some e.post at hstep
    simp [hl, step, hw, threadpoolThread, hexit] at hstep

/-- A pool that never grew is destroyed after its only worker has terminated. -/
theorem collects_without_growth :
    ∃ h s, (threadpool ⟨1, 1, 1⟩ .cleared).Run h s ∧ s.poolFreed = true ∧ CollectsWorkers h := by
  obtain ⟨h, s, hrun, hP⟩ := exists_run_of_schedule ⟨1, 1, 1⟩ .cleared
    (List.replicate 2 .destroy ++ [.adjust false 0] ++ List.replicate 4 (.work 0) ++
      List.replicate 5 .destroy)
    (fun h s => s.poolFreed && h.all fun e =>
      decide (e.pre.pool.pthreadMinNum = 1) && decide (e.pre.pool.threads.length = 1))
    (by decide +kernel)
  simp only [Bool.and_eq_true, decide_eq_true_eq, List.all_eq_true] at hP
  refine ⟨h, s, hrun, hP.1,
    (collects_iff_unjoined_exited _ _ (by decide) h s hrun).2 fun e he _ i j w _ hj hslot => ?_⟩
  obtain ⟨hmin, hlen⟩ := hP.2 e he
  have hlt := (List.getElem?_eq_some_iff.mp hslot).1
  omega

/-- The pool has grown to three workers and is destroyed; the second worker then locks a mutex
that has been freed. -/
theorem growth_outlives_pool :
    ¬ ∀ (c : Config) (m : Memory) (h : History) (s : State), 0 < c.threadMinNum →
      c.threadMinNum ≤ c.threadMaxNum → (threadpool c m).Run h s → CollectsWorkers h := by
  intro hclaim
  obtain ⟨h, s, hrun, hP⟩ := exists_run_of_schedule ⟨1, 3, 5⟩ .cleared
    (backlogSchedule ++ List.replicate 36 (.adjust false 0) ++ List.replicate 2 .destroy ++
      [.adjust false 0] ++ List.replicate 4 (.work 0) ++ List.replicate 5 .destroy ++ [.work 1])
    (fun h s => h.any fun e => e.pre.poolFreed && decide (e.label = .work 1) &&
      (e.pre.workers[1]?).any fun (w : Worker) => decide (w.pc = .lock)) (by decide +kernel)
  simp only [List.any_eq_true, Bool.and_eq_true, decide_eq_true_eq] at hP
  obtain ⟨e, he, ⟨hfreed, hlabel⟩, hw⟩ := hP
  obtain ⟨w, hw, hpc⟩ : ∃ w, e.pre.workers[1]? = some w ∧ w.pc = .lock := by
    simpa [Option.any_eq_true] using hw
  refine (hclaim _ _ _ _ (by decide) (by decide) hrun).unused e he hfreed ⟨1, w, hlabel, hw, ?_⟩
  simp [hpc]

end LinuxExercise.ThreadPool
