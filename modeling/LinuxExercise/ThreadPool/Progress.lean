import LinuxExercise.ThreadPool.Lifetime
import LinuxExercise.ThreadPool.Shutdown

/-!
# Progress once the manager has returned

After line 261 of `threadpool_destroy` the pool only winds down: `shutdown` is set for good and
the manager has terminated.  Every statement a worker or a call still executes brings it closer
to its end (`threadpoolThread_rank`, `threadpoolAdd_rank`), and neither mutex can stay taken,
because its owner is always a thread that goes on to unlock it (`lockAttended_of_run`,
`counterAttended_of_run`).  The last two hold of every run, also where line 123 has unlocked
the mutex under another thread.

The results are `exists_exit`, that a worker which is neither blocked nor about to block can
always be run to its exit, and `exists_statement`, that a call which is neither blocked nor
finished can always be given its next statement.
-/

namespace LinuxExercise.ThreadPool

open Monitor

/-! ## Whose locals a step changes -/

/-- The thread that executes a statement in the step. -/
def Label.thread : Label → Option Thread
  | .add i _ => some (.adder i)
  | .work i => some (.worker i)
  | .adjust _ _ => some .adjust
  | .call _ _ | .destroy | .wakeAdd _ | .wakeWork _ => none

/-- The thread is blocked on a condition variable with no wake-up pending. -/
def Local.isBlocked : Local → Bool
  | .add a => a.isBlocked
  | .work w => w.isBlocked
  | .manage _ => false

/-- A thread that is not blocked stays where it is while the others execute. -/
theorem Stepped.keeps {s s' : State} {l : Label} (h : Stepped s l s') {u : Thread} {x : Local}
    (hl : l.thread ≠ some u) (hx : s.thread u = some x) (hb : x.isBlocked = false) :
    s'.thread u = some x := by
  cases u with
  | adder i =>
    obtain ⟨a, ha, rfl⟩ := Option.map_eq_some_iff.mp hx
    have hpc : a.pc ≠ .blocked := by simpa [Local.isBlocked, Adder.isBlocked] using hb
    have hlt : i < s.adders.length := (List.getElem?_eq_some_iff.mp ha).1
    have hb' := List.getElem?_eq_getElem (hlt.trans_le h.adders_length)
    refine Option.map_eq_some_iff.mpr ⟨_, ?_, rfl⟩
    rw [hb']
    congr 1
    rcases h.adder hb' with ⟨a', ha', hsame, -⟩ | ⟨choice, a', p, e, rfl, -, -⟩ |
      ⟨f, x, -, hi, -⟩
    · obtain rfl := Option.some.inj (ha.symm.trans ha')
      rw [Adder.wake_eq_self hpc, or_self] at hsame
      exact hsame
    · exact absurd rfl hl
    · omega
  | worker i =>
    obtain ⟨w, hw, rfl⟩ := Option.map_eq_some_iff.mp hx
    have hpc : w.pc ≠ .blocked := by simpa [Local.isBlocked, Worker.isBlocked] using hb
    have hlt : i < s.workers.length := (List.getElem?_eq_some_iff.mp hw).1
    have hb' := List.getElem?_eq_getElem (hlt.trans_le h.workers_length)
    refine Option.map_eq_some_iff.mpr ⟨_, ?_, rfl⟩
    rw [hb']
    congr 1
    rcases h.worker hb' with ⟨w', hw', hsame⟩ | ⟨w', p, e, rfl, -, -, -⟩ | ⟨-, -, hi, -⟩
    · obtain rfl := Option.some.inj (hw.symm.trans hw')
      rw [Worker.wake_eq_self hpc, or_self] at hsame
      exact hsame
    · exact absurd rfl hl
    · omega
  | adjust =>
    obtain rfl := Option.some.inj hx
    refine congrArg (fun m => some (Local.manage m)) ?_
    cases h with
    | call | wakeAdd | wakeWork => rfl
    | add _ _ happ | work _ _ happ | destroy _ happ => exact (applied_of_apply happ).adjust
    | adjust => exact absurd rfl hl

/-- The statement of a thread: its locals, the pool and the effect it leaves. -/
inductive Executes (s : State) : Thread → Local → Pool → Local → Effect → Prop
  | add {i : ℕ} {a a' : Adder} {p : Pool} {e : Effect} :
      threadpoolAdd (.adder i) s.pool a = some (p, a', e) →
      Executes s (.adder i) (.add a) p (.add a') e
  | work {i : ℕ} {w w' : Worker} {p : Pool} {e : Effect} :
      threadpoolThread (.worker i) s.taken.length s.pool w = some (p, w', e) →
      Executes s (.worker i) (.work w) p (.work w') e
  | adjust {answer : Bool} {m m' : Adjust} {p : Pool} {e : Effect} :
      adjustThread (pthreadIsAlive s (s.pool.threads.getD s.adjust.i 0) answer)
        (tidOf s.workers.length) s.pool m = some (p, m', e) →
      Executes s .adjust (.manage m) p (.manage m') e

/-- A step in which a thread executes a statement. -/
theorem Stepped.executes {s s' : State} {l : Label} (h : Stepped s l s') {t : Thread}
    (hl : l.thread = some t) : ∃ x y e, s.thread t = some x ∧ s'.thread t = some y ∧
      Executes s t x s'.pool y e := by
  cases h with
  | call | destroy | wakeAdd | wakeWork => cases hl
  | @add i choice a a' p e _ ha hadd happ =>
    obtain rfl := Option.some.inj hl
    have hap := applied_of_apply happ
    have hlt : i < s.adders.length := (List.getElem?_eq_some_iff.mp ha).1
    refine ⟨.add a, .add a', e, by simp [State.thread, ha], ?_, ?_⟩
    · simp [State.thread, hap.adders_of_add hadd, hlt]
    · rw [hap.pool]
      exact .add hadd
  | @work i w w' p e _ hw hwork happ =>
    obtain rfl := Option.some.inj hl
    have hap := applied_of_apply happ
    have hlt : i < s.workers.length := (List.getElem?_eq_some_iff.mp hw).1
    refine ⟨.work w, .work w', e, by simp [State.thread, hw], ?_, ?_⟩
    · simp [State.thread, hap.workers_of_work hwork, hlt]
    · rw [hap.pool]
      exact .work hwork
  | @adjust answer choice m p e _ hadj happ =>
    obtain rfl := Option.some.inj hl
    have hap := applied_of_apply happ
    refine ⟨.manage s.adjust, .manage m, e, rfl, ?_, ?_⟩
    · simp [State.thread, hap.adjust]
    · rw [hap.pool]
      exact .adjust hadj

/-- Every effect can be carried out, for some choice of the worker that a signal unblocks. -/
theorem exists_apply (s : State) (e : Effect) : ∃ choice s', s.apply choice e = some s' := by
  cases e with
  | signalNotEmpty =>
    by_cases hany : s.workers.any Worker.isBlocked = true
    · obtain ⟨w, hw, hb⟩ := List.any_eq_true.mp hany
      obtain ⟨i, hi⟩ := List.getElem?_of_mem hw
      exact ⟨i, _, by simp only [State.apply, pthreadCondSignal, hany, hi, hb, if_true]; rfl⟩
    · exact ⟨0, _, by simp only [State.apply, pthreadCondSignal, if_neg hany]; rfl⟩
  | _ => exact ⟨0, _, rfl⟩

/-- A statement of a call or a worker is a step of the system. -/
theorem Executes.exists_step {s : State} {t : Thread} {x y : Local} {p : Pool} {e : Effect}
    (h : Executes s t x p y e) (hx : s.thread t = some x) (ht : t ≠ .adjust) :
    ∃ l s', step s l = some s' ∧ l.thread = some t ∧ s'.pool = p ∧ s'.thread t = some y := by
  cases h with
  | @add i a a' p e hadd =>
    have ha : s.adders[i]? = some a := by simpa [State.thread] using hx
    obtain ⟨choice, s', happ⟩ := exists_apply { s with pool := p, adders := s.adders.set i a' } e
    have hap : Applied (s.setAdder i p a') e s' := applied_of_apply happ
    have hlt : i < s.adders.length := (List.getElem?_eq_some_iff.mp ha).1
    refine ⟨.add i choice, s', by simp only [step, ha, hadd, happ], rfl, hap.pool, ?_⟩
    simp [State.thread, hap.adders_of_add hadd, hlt]
  | @work i w w' p e hwork =>
    have hw : s.workers[i]? = some w := by simpa [State.thread] using hx
    obtain ⟨s', happ⟩ : ∃ s', (s.setWorker i p w').apply 0 e = some s' := by
      have hsignal := (threadpoolThread_effect hwork).1
      cases e with
      | signalNotEmpty => exact absurd rfl hsignal
      | _ => exact ⟨_, rfl⟩
    have hap := applied_of_apply happ
    have hlt : i < s.workers.length := (List.getElem?_eq_some_iff.mp hw).1
    refine ⟨.work i, s', ?_, rfl, hap.pool, ?_⟩
    · simp only [step, hw, hwork]
      exact happ
    · simp [State.thread, hap.workers_of_work hwork, hlt]
  | adjust => exact absurd rfl ht

/-! ## The owners of the two mutexes -/

/-- The thread holds `pool->thread_counter`. -/
def Local.counts : Local → Bool
  | .add _ => false
  | .work w => decide (w.pc = .incBusy ∨ w.pc = .unlockCounter)
  | .manage m => decide (m.pc = .readBusy ∨ m.pc = .unlockCounter)

theorem Local.not_isBlocked_of_holds {x : Local} (hh : x.holds = true) : x.isBlocked = false := by
  cases x with
  | add a =>
    by_contra hb
    have hpc : a.pc = .blocked := by simpa [Local.isBlocked, Adder.isBlocked] using hb
    simp [Local.holds, Adder.holds, hpc] at hh
  | work w =>
    by_contra hb
    have hpc : w.pc = .blocked := by simpa [Local.isBlocked, Worker.isBlocked] using hb
    simp [Local.holds, Worker.holds, hpc] at hh
  | manage => rfl

theorem Local.not_isBlocked_of_counts {x : Local} (hc : x.counts = true) :
    x.isBlocked = false := by
  cases x with
  | add => cases hc
  | work w =>
    by_contra hb
    have hpc : w.pc = .blocked := by simpa [Local.isBlocked, Worker.isBlocked] using hb
    simp [Local.counts, hpc] at hc
  | manage => rfl

/-- The rule for the owner of a mutex: each statement follows the discipline, or frees the
mutex, or does not hold it and leaves it alone. -/
theorem Stepped.attended {holds : Local → Bool} {s s' : State} {l : Label} {o o' : Option Thread}
    (h : Stepped s l s') (hawake : ∀ x, holds x = true → x.isBlocked = false)
    (hatt : Attended holds o s.thread) (hidle : l.thread = none → o' = o)
    (hmove : ∀ t x y e, l.thread = some t → Executes s t x s'.pool y e → s.thread t = some x →
      o' = none ∨ Discipline t o (holds x) o' (holds y) ∨ o' = o ∧ holds x = false) :
    Attended holds o' s'.thread := by
  cases hl : l.thread with
  | none =>
    exact hatt.passive (hidle hl) fun u z hz hu => h.keeps (by simp [hl]) hu (hawake z hz)
  | some t =>
    have hothers : ∀ u, u ≠ t → ∀ z, holds z = true → s.thread u = some z →
        s'.thread u = some z := by
      intro u hut z hz hu
      exact h.keeps (by simpa [hl] using Ne.symm hut) hu (hawake z hz)
    obtain ⟨x, y, e, hx, hy, hexe⟩ := h.executes hl
    rcases hmove t x y e hl hexe hx with rfl | hd | ⟨rfl, hx'⟩
    · exact .of_free
    · exact hatt.move hx hy hothers hd
    · refine hatt.passive rfl fun u z hz hu => ?_
      have hut : u ≠ t := by
        rintro rfl
        obtain rfl := Option.some.inj (hx.symm.trans hu)
        rw [hx'] at hz
        cases hz
      exact hothers u hut z hz hu

/-- A step in which no thread executes a statement leaves both mutexes alone. -/
theorem Stepped.mutexes_of_idle {s s' : State} {l : Label} (h : Stepped s l s')
    (hl : l.thread = none) :
    s'.pool.lock = s.pool.lock ∧ s'.pool.threadCounter = s.pool.threadCounter := by
  cases h with
  | call | wakeAdd | wakeWork => exact ⟨rfl, rfl⟩
  | destroy hdes happ =>
    rw [(applied_of_apply happ).pool, (threadpoolDestroy_frame hdes).1]
    exact ⟨rfl, rfl⟩
  | add | work | adjust => cases hl

/-- What a call that has executed line 123 does to the mutex. -/
theorem threadpoolAdd_late {me : Thread} {p p' : Pool} {a a' : Adder} {e : Effect}
    {observed : Bool} (h : threadpoolAdd me p a = some (p', a', e)) (hrel : a'.released = true)
    (hledger : a.Ledger observed) : p'.lock = none ∨ p'.lock = p.lock ∧ a.holds = false := by
  obtain ⟨pc, f, x, released, unlocks⟩ := a
  cases pc <;> simp only [threadpoolAdd] at h
  all_goals try split at h
  all_goals cases h
  all_goals simp_all [Adder.Ledger, Adder.holds]

/-- Whoever owns `lock` is a thread inside a critical section. -/
theorem lockAttended_of_run {c : Config} {m : Memory} {h : History} {s : State}
    (hrun : (threadpool c m).Run h s) : Attended Local.holds s.pool.lock s.thread := by
  refine hrun.invariant (I := fun s => Attended Local.holds s.pool.lock s.thread) ?_ ?_
  · rintro s rfl
    exact .of_free
  · intro s l s' hreach hstep hatt
    obtain ⟨h, hrun⟩ := hreach
    have hstepped := stepped_of_run hstep
    refine hstepped.attended (fun x => Local.not_isBlocked_of_holds) hatt
      (fun hl => (hstepped.mutexes_of_idle hl).1) fun t x y e _ hexe hx => ?_
    generalize s'.pool = p at hexe
    cases hexe with
    | @add i a a' _ _ hadd =>
      have ha : s.adders[i]? = some a := by simpa [State.thread] using hx
      cases hrel : a'.released with
      | false => exact .inr (.inl (threadpoolAdd_discipline hadd hrel))
      | true =>
        rcases threadpoolAdd_late hadd hrel (ledger_of_run hrun ha) with hfree | hkept
        · exact .inl hfree
        · exact .inr (.inr hkept)
    | work hwork => exact .inr (.inl (threadpoolThread_discipline hwork))
    | adjust hadj => exact .inr (.inl (adjustThread_discipline hadj))

theorem threadpoolThread_counter {me : Thread} {n : ℕ} {p p' : Pool} {w w' : Worker} {e : Effect}
    (h : threadpoolThread me n p w = some (p', w', e)) :
    Discipline me p.threadCounter (Local.work w).counts p'.threadCounter
      (Local.work w').counts := by
  obtain ⟨pc, task, number⟩ := w
  cases pc <;> simp only [threadpoolThread] at h
  case lockCounter =>
    split at h
    · next hfree =>
      cases h
      rw [hfree]
      exact .acquire
    · cases h
  case unlockCounter =>
    cases h
    exact .release
  all_goals try split at h
  all_goals cases h
  all_goals exact .keep

theorem adjustThread_counter {alive : Bool} {tid : ℕ} {p p' : Pool} {m m' : Adjust} {e : Effect}
    (h : adjustThread alive tid p m = some (p', m', e)) :
    Discipline .adjust p.threadCounter (Local.manage m).counts p'.threadCounter
      (Local.manage m').counts := by
  obtain ⟨pc, i, qs, al, ad, bu⟩ := m
  cases pc <;> simp only [adjustThread] at h
  case lockCounter =>
    split at h
    · next hfree =>
      cases h
      rw [hfree]
      exact .acquire
    · cases h
  case unlockCounter =>
    cases h
    exact .release
  all_goals try split at h
  all_goals cases h
  all_goals exact .keep

/-- Whoever owns `thread_counter` is a thread inside a critical section. -/
theorem counterAttended_of_run {c : Config} {m : Memory} {h : History} {s : State}
    (hrun : (threadpool c m).Run h s) : Attended Local.counts s.pool.threadCounter s.thread := by
  refine hrun.invariant (I := fun s => Attended Local.counts s.pool.threadCounter s.thread) ?_ ?_
  · rintro s rfl
    exact .of_free
  · intro s l s' _ hstep hatt
    have hstepped := stepped_of_run hstep
    refine hstepped.attended (fun x => Local.not_isBlocked_of_counts) hatt
      (fun hl => (hstepped.mutexes_of_idle hl).2) fun t x y e _ hexe _ => ?_
    generalize s'.pool = p at hexe
    cases hexe with
    | add hadd =>
      refine .inr (.inr ⟨?_, rfl⟩)
      rw [threadpoolAdd_frame hadd]
    | work hwork => exact .inr (.inl (threadpoolThread_counter hwork))
    | adjust hadj => exact .inr (.inl (adjustThread_counter hadj))

/-! ## How far a thread is from its end -/

/-- The statements a call has left once `shutdown` is set, at most. -/
def Adder.rank (a : Adder) : ℕ :=
  match a.pc with
  | .wait => 15
  | .blocked => 14
  | .lock | .woken => 13
  | .whileFull => 12
  | .ifShutdown => 11
  | .unlockShutdown => 10
  | .ifArgs => 9
  | .freeArgs => 8
  | .nullArgs => 7
  | .storeArgs => 6
  | .storeFunction => 5
  | .moveRear => 4
  | .incSize => 3
  | .signal => 2
  | .unlock => 1
  | .returned => 0

/-- The statements a worker has left once `shutdown` is set, at most. -/
def Worker.rank (w : Worker) : ℕ :=
  match w.pc with
  | .takeFunction => 15
  | .takeArgs => 14
  | .moveFront => 13
  | .decSize => 12
  | .broadcast => 11
  | .unlock => 10
  | .lockCounter | .wait => 9
  | .incBusy | .blocked => 8
  | .unlockCounter | .woken => 7
  | .call | .ifWaitExit => 6
  | .running | .decWaitExit => 5
  | .lock | .ifAlive => 4
  | .whileEmpty => 3
  | .ifShutdown | .decAlive => 2
  | .exitShutdown | .exitRetire => 1
  | .exited => 0

/-- The statements a thread has left; the manager has terminated. -/
def Local.rank : Local → ℕ
  | .add a => a.rank
  | .work w => w.rank
  | .manage _ => 0

theorem threadpoolAdd_rank {me : Thread} {p p' : Pool} {a a' : Adder} {e : Effect}
    (h : threadpoolAdd me p a = some (p', a', e)) (hs : p.shutdown = true) :
    a'.rank < a.rank := by
  obtain ⟨pc, f, x, released, unlocks⟩ := a
  cases pc <;> simp only [threadpoolAdd] at h
  all_goals try split at h
  all_goals cases h
  all_goals simp_all [Adder.rank]

theorem threadpoolThread_rank {me : Thread} {n : ℕ} {p p' : Pool} {w w' : Worker} {e : Effect}
    (h : threadpoolThread me n p w = some (p', w', e)) (hs : p.shutdown = true) :
    w'.rank < w.rank := by
  obtain ⟨pc, task, number⟩ := w
  cases pc <;> simp only [threadpoolThread] at h
  all_goals try split at h
  all_goals cases h
  all_goals simp_all [Worker.rank]

theorem Executes.rank {s : State} {t : Thread} {x y : Local} {p : Pool} {e : Effect}
    (h : Executes s t x p y e) (hs : s.pool.shutdown = true) (ht : t ≠ .adjust) :
    y.rank < x.rank := by
  cases h with
  | add hadd => exact threadpoolAdd_rank hadd hs
  | work hwork => exact threadpoolThread_rank hwork hs
  | adjust => exact absurd rfl ht

/-- Once `shutdown` is set nobody enters `pthread_cond_wait` who has not tested before. -/
theorem threadpoolThread_awake {me : Thread} {n : ℕ} {p p' : Pool} {w w' : Worker} {e : Effect}
    (h : threadpoolThread me n p w = some (p', w', e)) (hs : p.shutdown = true)
    (hw : w.pc ≠ .wait) : w'.pc ≠ .wait ∧ w'.pc ≠ .blocked := by
  obtain ⟨pc, task, number⟩ := w
  cases pc <;> simp only [threadpoolThread] at h
  case wait => exact absurd rfl hw
  all_goals try split at h
  all_goals cases h
  all_goals simp_all

theorem threadpoolAdd_awake {me : Thread} {p p' : Pool} {a a' : Adder} {e : Effect}
    (h : threadpoolAdd me p a = some (p', a', e)) (hs : p.shutdown = true)
    (ha : a.pc ≠ .wait) : a'.pc ≠ .wait ∧ a'.pc ≠ .blocked := by
  obtain ⟨pc, f, x, released, unlocks⟩ := a
  cases pc <;> simp only [threadpoolAdd] at h
  case wait => exact absurd rfl ha
  all_goals try split at h
  all_goals cases h
  all_goals simp_all

/-! ## When a thread can execute -/

/-- The next statement of the thread locks `lock`. -/
def Local.wantsLock : Local → Bool
  | .add a => decide (a.pc = .lock ∨ a.pc = .woken)
  | .work w => decide (w.pc = .lock ∨ w.pc = .woken)
  | .manage m => decide (m.pc = .lockSnapshot ∨ m.pc = .lockGrow ∨ m.pc = .lockRetire)

/-- The next statement of the thread locks `thread_counter`. -/
def Local.wantsCounter : Local → Bool
  | .add _ => false
  | .work w => decide (w.pc = .lockCounter)
  | .manage m => decide (m.pc = .lockCounter)

/-- The thread has no statement left. -/
def Local.isDone : Local → Bool
  | .add a => decide (a.pc = .returned)
  | .work w => decide (w.pc = .exited)
  | .manage m => decide (m.pc = .returned)

/-- A call or a worker can execute unless it is blocked, done or before a taken mutex. -/
theorem exists_executes {s : State} {t : Thread} {x : Local} (hx : s.thread t = some x)
    (ht : t ≠ .adjust) (hb : x.isBlocked = false) (hdone : x.isDone = false)
    (hlock : x.wantsLock = true → s.pool.lock = none)
    (hcounter : x.wantsCounter = true → s.pool.threadCounter = none) :
    ∃ p y e, Executes s t x p y e := by
  cases t with
  | adjust => exact absurd rfl ht
  | adder i =>
    obtain ⟨a, -, rfl⟩ := Option.map_eq_some_iff.mp hx
    suffices hsome : (threadpoolAdd (.adder i) s.pool a).isSome = true by
      obtain ⟨r, hr⟩ := Option.isSome_iff_exists.mp hsome
      exact ⟨r.1, _, r.2.2, .add hr⟩
    obtain ⟨pc, f, x, released, unlocks⟩ := a
    cases pc <;> simp only [threadpoolAdd]
    case blocked => cases hb
    case returned => cases hdone
    case lock | woken => rw [if_pos (hlock rfl)]; rfl
    all_goals try split
    all_goals rfl
  | worker i =>
    obtain ⟨w, -, rfl⟩ := Option.map_eq_some_iff.mp hx
    suffices hsome : (threadpoolThread (.worker i) s.taken.length s.pool w).isSome = true by
      obtain ⟨r, hr⟩ := Option.isSome_iff_exists.mp hsome
      exact ⟨r.1, _, r.2.2, .work hr⟩
    obtain ⟨pc, task, number⟩ := w
    cases pc <;> simp only [threadpoolThread]
    case blocked => cases hb
    case exited => cases hdone
    case lock | woken => rw [if_pos (hlock rfl)]; rfl
    case lockCounter => rw [if_pos (hcounter rfl)]; rfl
    all_goals try split
    all_goals rfl

/-! ## Winding down -/

/-- The states a run reaches after line 261 of `threadpool_destroy`. -/
structure Closing (c : Config) (m : Memory) (s : State) : Prop where
  reachable : (threadpool c m).Reachable s
  shutdown : s.pool.shutdown = true
  manager : s.adjust.pc = .returned

section Closing

variable {c : Config} {m : Memory}

theorem Closing.after_step {s s' : State} {l : Label} (hs : Closing c m s)
    (h : step s l = some s') : Closing c m s' := by
  have hstepped := stepped_of_step h
  obtain ⟨g, hrun⟩ := hs.reachable
  refine ⟨⟨_, hrun.step h⟩, hstepped.shutdown hs.shutdown, ?_⟩
  rw [(hstepped.managerDone hs.manager).1]
  exact hs.manager

theorem Closing.leads {s s' : State} (hs : Closing c m s) (h : (threadpool c m).Leads s s') :
    Closing c m s' := by
  induction h with
  | refl => exact hs
  | tail _ hstep ih =>
    obtain ⟨l, hl⟩ := hstep
    exact ih.after_step hl

/-- The manager holds neither mutex any more. -/
theorem Closing.ne_adjust {s : State} (hs : Closing c m s) {t : Thread} {x : Local}
    (hx : s.thread t = some x) (hh : x.holds = true ∨ x.counts = true) : t ≠ .adjust := by
  rintro rfl
  obtain rfl := Option.some.inj hx
  simp [Local.holds, Adjust.holds, Local.counts, hs.manager] at hh

/-- A mutex whose owner goes on to unlock it can be made free, and the threads that do not
hold it stay where they are meanwhile. -/
theorem exists_free {holds : Local → Bool} (owner : Pool → Option Thread)
    (hatt : ∀ s, Closing c m s → Attended holds (owner s.pool) s.thread)
    (hnext : ∀ s t x, Closing c m s → s.thread t = some x → holds x = true →
      t ≠ .adjust ∧ ∃ p y e, Executes s t x p y e)
    (hunlock : ∀ s t x p y e, Executes s t x p y e → holds x = true →
      owner p = owner s.pool ∨ owner p = none)
    {s : State} (hs : Closing c m s) :
    ∃ s', (threadpool c m).Leads s s' ∧ owner s'.pool = none ∧
      ∀ u x, s.thread u = some x → x.isBlocked = false → holds x = false →
        s'.thread u = some x := by
  cases ho : owner s.pool with
  | none => exact ⟨s, .refl, ho, fun _ _ hx _ _ => hx⟩
  | some t =>
    obtain ⟨x, hx, hh⟩ := hatt s hs t ho
    -- The induction is on how far the owner is from its end.
    induction hn : x.rank using Nat.strong_induction_on generalizing s x with
    | _ n ih =>
      obtain ⟨ht, p, y, e, hexe⟩ := hnext s t x hs hx hh
      obtain ⟨l, s₁, hstep, hl, hpool, hy⟩ := hexe.exists_step hx ht
      have hs₁ := hs.after_step hstep
      have hlead : (threadpool c m).Leads s s₁ := .single ⟨l, hstep⟩
      have hothers : ∀ u z, s.thread u = some z → z.isBlocked = false → holds z = false →
          s₁.thread u = some z := by
        intro u z hz hb hfree
        have hut : u ≠ t := by
          rintro rfl
          obtain rfl := Option.some.inj (hx.symm.trans hz)
          rw [hh] at hfree
          cases hfree
        exact (stepped_of_step hstep).keeps (by simpa [hl] using Ne.symm hut) hz hb
      rcases hunlock s t x p y e hexe hh with hsame | hfree
      · have ho₁ : owner s₁.pool = some t := by rw [hpool, hsame, ho]
        obtain ⟨y', hy', hh'⟩ := hatt s₁ hs₁ t ho₁
        obtain rfl := Option.some.inj (hy.symm.trans hy')
        have hrank : y.rank < n := hn ▸ hexe.rank hs.shutdown ht
        obtain ⟨s', hlead', hfree', hkeep⟩ := ih _ hrank hs₁ ho₁ y hy hh' rfl
        refine ⟨s', hlead.trans hlead', hfree', fun u z hz hb hfr => ?_⟩
        exact hkeep u z (hothers u z hz hb hfr) hb hfr
      · exact ⟨s₁, hlead, hpool ▸ hfree, hothers⟩

/-- A thread inside a critical section is about to do something that cannot block. -/
theorem Local.ready_of_inside {x : Local} (hh : x.holds = true ∨ x.counts = true) :
    x.isBlocked = false ∧ x.isDone = false ∧ x.wantsLock = false ∧ x.wantsCounter = false := by
  cases x with
  | add a =>
    obtain ⟨pc, f, x, released, unlocks⟩ := a
    cases pc <;> simp_all [Local.holds, Adder.holds, Local.counts, Local.isBlocked,
      Adder.isBlocked, Local.isDone, Local.wantsLock, Local.wantsCounter]
  | work w =>
    obtain ⟨pc, task, number⟩ := w
    cases pc <;> simp_all [Local.holds, Worker.holds, Local.counts, Local.isBlocked,
      Worker.isBlocked, Local.isDone, Local.wantsLock, Local.wantsCounter]
  | manage m =>
    obtain ⟨pc, i, qs, al, ad, bu⟩ := m
    cases pc <;> simp_all [Local.holds, Adjust.holds, Local.counts, Local.isBlocked,
      Local.isDone, Local.wantsLock, Local.wantsCounter]

/-- A thread inside a critical section can execute its next statement. -/
theorem Closing.exists_executes_of_inside {s : State} (hs : Closing c m s) {t : Thread}
    {x : Local} (hx : s.thread t = some x) (hh : x.holds = true ∨ x.counts = true) :
    t ≠ .adjust ∧ ∃ p y e, Executes s t x p y e := by
  obtain ⟨hb, hdone, hlock, hcounter⟩ := Local.ready_of_inside hh
  have ht := hs.ne_adjust hx hh
  exact ⟨ht, exists_executes hx ht hb hdone (by simp [hlock]) (by simp [hcounter])⟩

theorem Executes.lock_of_holds {s : State} {t : Thread} {x y : Local} {p : Pool} {e : Effect}
    (h : Executes s t x p y e) (hh : x.holds = true) : p.lock = s.pool.lock ∨ p.lock = none := by
  cases h with
  | @add i a a' p e hadd =>
    obtain ⟨pc, f, x, released, unlocks⟩ := a
    cases pc <;> simp only [threadpoolAdd] at hadd
    case lock | woken | blocked | returned => cases hh
    all_goals try split at hadd
    all_goals cases hadd
    all_goals first | exact .inl rfl | exact .inr rfl
  | work hwork => exact (threadpoolThread_discipline hwork).of_holder hh
  | adjust hadj => exact (adjustThread_discipline hadj).of_holder hh

theorem Executes.counter_of_counts {s : State} {t : Thread} {x y : Local} {p : Pool} {e : Effect}
    (h : Executes s t x p y e) (hh : x.counts = true) :
    p.threadCounter = s.pool.threadCounter ∨ p.threadCounter = none := by
  cases h with
  | add => cases hh
  | work hwork => exact (threadpoolThread_counter hwork).of_holder hh
  | adjust hadj => exact (adjustThread_counter hadj).of_holder hh

theorem Closing.exists_lock_free {s : State} (hs : Closing c m s) :
    ∃ s', (threadpool c m).Leads s s' ∧ s'.pool.lock = none ∧
      ∀ u x, s.thread u = some x → x.isBlocked = false → x.holds = false →
        s'.thread u = some x := by
  refine exists_free Pool.lock ?_ ?_ ?_ hs
  · intro s hs
    obtain ⟨h, hrun⟩ := hs.reachable
    exact lockAttended_of_run hrun
  · exact fun s t x hs hx hh => hs.exists_executes_of_inside hx (.inl hh)
  · exact fun s t x p y e hexe hh => hexe.lock_of_holds hh

theorem Closing.exists_counter_free {s : State} (hs : Closing c m s) :
    ∃ s', (threadpool c m).Leads s s' ∧ s'.pool.threadCounter = none ∧
      ∀ u x, s.thread u = some x → x.isBlocked = false → x.counts = false →
        s'.thread u = some x := by
  refine exists_free Pool.threadCounter ?_ ?_ ?_ hs
  · intro s hs
    obtain ⟨h, hrun⟩ := hs.reachable
    exact counterAttended_of_run hrun
  · exact fun s t x hs hx hh => hs.exists_executes_of_inside hx (.inr hh)
  · exact fun s t x p y e hexe hh => hexe.counter_of_counts hh

/-- A thread that is neither blocked nor finished can be given its next statement. -/
theorem Closing.exists_statement {s : State} (hs : Closing c m s) {t : Thread} {x : Local}
    (hx : s.thread t = some x) (ht : t ≠ .adjust) (hb : x.isBlocked = false)
    (hdone : x.isDone = false) : ∃ s' p y e, (threadpool c m).Leads s s' ∧
      s'.thread t = some x ∧ Executes s' t x p y e := by
  by_cases hlock : x.wantsLock = true
  · have hholds : x.holds = false := by
      by_contra hh
      rw [(Local.ready_of_inside (.inl (by simpa using hh))).2.2.1] at hlock
      cases hlock
    have hcounter : x.wantsCounter = false := by
      cases x with
      | add => rfl
      | work w =>
        by_contra hc
        have hpc : w.pc = .lockCounter := by simpa [Local.wantsCounter] using hc
        simp [Local.wantsLock, hpc] at hlock
      | manage m =>
        by_contra hc
        have hpc : m.pc = .lockCounter := by simpa [Local.wantsCounter] using hc
        simp [Local.wantsLock, hpc] at hlock
    obtain ⟨s', hlead, hfree, hkeep⟩ := hs.exists_lock_free
    have hx' := hkeep t x hx hb hholds
    obtain ⟨p, y, e, hexe⟩ := exists_executes hx' ht hb hdone (fun _ => hfree) (by simp [hcounter])
    exact ⟨s', p, y, e, hlead, hx', hexe⟩
  · obtain ⟨s', hlead, hfree, hx'⟩ : ∃ s', (threadpool c m).Leads s s' ∧
        (x.wantsCounter = true → s'.pool.threadCounter = none) ∧ s'.thread t = some x := by
      by_cases hcounter : x.wantsCounter = true
      · have hcounts : x.counts = false := by
          by_contra hh
          rw [(Local.ready_of_inside (.inr (by simpa using hh))).2.2.2] at hcounter
          cases hcounter
        obtain ⟨s', hlead, hfree, hkeep⟩ := hs.exists_counter_free
        exact ⟨s', hlead, fun _ => hfree, hkeep t x hx hb hcounts⟩
      · exact ⟨s, .refl, fun hc => absurd hc hcounter, hx⟩
    obtain ⟨p, y, e, hexe⟩ := exists_executes hx' ht hb hdone (fun hl => absurd hl hlock) hfree
    exact ⟨s', p, y, e, hlead, hx', hexe⟩

/-- A worker that is neither blocked nor about to block can be run to its exit. -/
theorem Closing.exists_exit {s : State} (hs : Closing c m s) {i : ℕ} {w : Worker}
    (hw : s.workers[i]? = some w) (hwait : w.pc ≠ .wait) (hblocked : w.pc ≠ .blocked) :
    ∃ s', (threadpool c m).Leads s s' ∧ ∃ v, s'.workers[i]? = some v ∧ v.pc = .exited := by
  -- Each statement brings the worker closer to its end.
  induction hn : w.rank using Nat.strong_induction_on generalizing s w with
  | _ n ih =>
    by_cases hexit : w.pc = .exited
    · exact ⟨s, .refl, w, hw, hexit⟩
    have hx : s.thread (.worker i) = some (.work w) := by simp [State.thread, hw]
    obtain ⟨s₁, p, y, e, hlead₁, hx₁, hexe⟩ := hs.exists_statement hx (by simp)
      (by simpa [Local.isBlocked, Worker.isBlocked] using hblocked)
      (by simpa [Local.isDone] using hexit)
    have hs₁ := hs.leads hlead₁
    obtain ⟨l, s₂, hstep, -, -, hy⟩ := hexe.exists_step hx₁ (by simp)
    cases hexe with
    | @work _ _ w' _ _ hwork =>
      have hw' : s₂.workers[i]? = some w' := by simpa [State.thread] using hy
      obtain ⟨hwait', hblocked'⟩ := threadpoolThread_awake hwork hs₁.shutdown hwait
      have hrank : w'.rank < n := hn ▸ threadpoolThread_rank hwork hs₁.shutdown
      obtain ⟨s', hlead, hend⟩ := ih _ hrank (hs₁.after_step hstep) hw' hwait' hblocked' rfl
      exact ⟨s', (hlead₁.tail ⟨l, hstep⟩).trans hlead, hend⟩

end Closing

end LinuxExercise.ThreadPool
