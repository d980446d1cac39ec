import LinuxExercise.ThreadPool.Exclusion

/-!
# `threadpool_add` while the pool is shutting down

The branch of line 122 unlocks the mutex and has no `return`, so a call that finds `shutdown`
set goes on to queue its task without the mutex and unlocks it once more.

`AddAtomic` is what the branch should guarantee.  It holds of every run in which no call takes
the branch (`add_atomic_of_no_shutdown_branch`), by mutual exclusion and a bound on
`queue_size`; and it fails in every run in which a call that took the branch has returned,
because the history of the call then shows two unlocks (`unlocks_of_run`).
-/

namespace LinuxExercise.ThreadPool

open Monitor

/-! ## What an atomic call looks like -/

/-- The step is line 122 of the `i`-th call and finds `shutdown` set. -/
def observesShutdown (i : ℕ) (e : Event State Label) : Bool :=
  match e.label with
  | .add j _ =>
    decide (j = i) && e.pre.pool.shutdown &&
      (e.pre.adders[i]?).any fun a => decide (a.pc = .ifShutdown)
  | _ => false

/-- The thread that executes `pthread_mutex_unlock(&lock)` in the step. -/
def unlocker (e : Event State Label) : Option Thread :=
  match e.label with
  | .add i _ =>
    if (e.pre.adders[i]?).any fun a => decide (a.pc = .unlock ∨ a.pc = .unlockShutdown) then
      some (.adder i)
    else none
  | .work i =>
    if (e.pre.workers[i]?).any fun w =>
        decide (w.pc = .unlock ∨ w.pc = .exitRetire ∨ w.pc = .exitShutdown) then
      some (.worker i)
    else none
  | .adjust _ _ =>
    if e.pre.adjust.pc = .unlockSnapshot ∨ e.pre.adjust.pc = .unlockGrow ∨
        e.pre.adjust.pc = .unlockRetire then
      some .adjust
    else none
  | _ => none

/-- The step leaves the ring alone and frees nothing. -/
structure LeavesQueue (e : Event State Label) : Prop where
  taskQueue : e.post.pool.taskQueue = e.pre.pool.taskQueue
  queueFront : e.post.pool.queueFront = e.pre.pool.queueFront
  queueRear : e.post.pool.queueRear = e.pre.pool.queueRear
  queueSize : e.post.pool.queueSize = e.pre.pool.queueSize
  freed : e.post.freed = e.pre.freed

/-- A call that finds `shutdown` set changes nothing and unlocks once; every unlock is by the
owner; the queue does not overflow. -/
structure AddAtomic (h : History) (s : State) : Prop where
  untouched : ∀ i e₁ e₂, [e₁, e₂].Sublist h → observesShutdown i e₁ = true →
    (∃ choice, e₂.label = .add i choice) → LeavesQueue e₂
  unlocks_once : ∀ i a, s.adders[i]? = some a → (∃ e ∈ h, observesShutdown i e = true) →
    a.pc = .returned → a.unlocks = 1
  owner : ∀ e ∈ h, ∀ t, unlocker e = some t → e.pre.pool.lock = some t
  size_le : s.pool.queueSize ≤ s.pool.queueMaxSize

/-! ## The history of a call -/

/-- What a call has done so far, given whether it has found `shutdown` set. -/
def Adder.Ledger (observed : Bool) (a : Adder) : Prop :=
  match a.pc with
  | .lock | .whileFull | .wait | .blocked | .woken | .ifShutdown =>
    observed = false ∧ a.released = false ∧ a.unlocks = 0
  | .unlockShutdown => observed = true ∧ a.released = false ∧ a.unlocks = 0
  | .returned => a.released = observed ∧ a.unlocks = if observed then 2 else 1
  | _ => a.released = observed ∧ a.unlocks = if observed then 1 else 0

theorem Adder.Ledger.wake {observed : Bool} {a : Adder} (h : a.Ledger observed) :
    a.wake.Ledger observed := by
  unfold Adder.wake
  split
  · next hpc =>
    simp only [Adder.Ledger, hpc] at h
    simpa [Adder.Ledger] using h
  · exact h

/-- A statement of a call carries its ledger on; line 122 may find `shutdown` set. -/
theorem threadpoolAdd_ledger {me : Thread} {p p' : Pool} {a a' : Adder} {e : Effect}
    {observed : Bool} (h : threadpoolAdd me p a = some (p', a', e)) (hledger : a.Ledger observed) :
    a'.Ledger (observed || (p.shutdown && decide (a.pc = .ifShutdown))) := by
  obtain ⟨pc, f, x, released, unlocks⟩ := a
  cases pc <;> simp only [threadpoolAdd] at h
  case ifShutdown =>
    obtain ⟨rfl, hrel, hun⟩ := hledger
    split at h
    · next hs =>
      cases h
      simpa [hs] using ⟨rfl, hrel, hun⟩
    · next hs =>
      cases h
      simpa [hs, Adder.Ledger] using ⟨hrel, hun⟩
  case unlockShutdown =>
    obtain ⟨rfl, hrel, hun⟩ := hledger
    cases h
    have hone : unlocks + 1 = 1 := congrArg (· + 1) hun
    simpa [Adder.Ledger] using hone
  case unlock =>
    obtain ⟨hrel, hun⟩ := hledger
    cases h
    have htwo : unlocks + 1 = if observed then 2 else 1 :=
      (congrArg (· + 1) hun).trans (by split <;> rfl)
    simpa [Adder.Ledger] using ⟨hrel, htwo⟩
  all_goals try split at h
  all_goals cases h
  all_goals simpa [Adder.Ledger] using hledger

/-- Every call's fields agree with what the history of the run says about it. -/
theorem ledger_of_run {c : Config} {m : Memory} {h : History} {s : State}
    (hrun : (threadpool c m).Run h s) {i : ℕ} {a : Adder} (ha : s.adders[i]? = some a) :
    a.Ledger (h.any (observesShutdown i)) := by
  have key : (∀ (j : ℕ) (b : Adder), s.adders[j]? = some b →
      b.Ledger (h.any (observesShutdown j))) ∧
      ∀ j, s.adders.length ≤ j → h.any (observesShutdown j) = false := by
    refine hrun.ledger (J := fun h s => (∀ (j : ℕ) (b : Adder), s.adders[j]? = some b →
      b.Ledger (h.any (observesShutdown j))) ∧
      ∀ j, s.adders.length ≤ j → h.any (observesShutdown j) = false) ?_ ?_
    · rintro s rfl
      exact ⟨fun j b hb => by simp [created] at hb, fun j _ => rfl⟩
    · rintro h s l s' - hstep ⟨hold, hnew⟩
      have hstepped := stepped_of_run hstep
      constructor
      · intro j b hb
        rw [List.any_append]
        rcases hstepped.adder hb with ⟨a, ha, hba, hl⟩ | ⟨choice, a, p, e, rfl, ha, hadd⟩ |
          ⟨f, x, rfl, hj, rfl⟩
        · have hquiet : observesShutdown j ⟨s, l, s'⟩ = false := by
            cases l with
            | add k choice =>
              have hkj : k ≠ j := fun hkj => hl choice (by rw [hkj])
              simp [observesShutdown, hkj]
            | _ => rfl
          rw [List.any_cons, List.any_nil, hquiet, Bool.or_false, Bool.or_false]
          rcases hba with rfl | rfl
          · exact hold j b ha
          · exact (hold j a ha).wake
        · have hobs : observesShutdown j ⟨s, .add j choice, s'⟩ =
              (s.pool.shutdown && decide (a.pc = .ifShutdown)) := by
            simp [observesShutdown, ha]
          rw [List.any_cons, List.any_nil, hobs, Bool.or_false]
          exact threadpoolAdd_ledger hadd (hold j a ha)
        · rw [hnew j hj.ge]
          exact ⟨rfl, rfl, rfl⟩
      · intro j hj
        have hlt : s.adders.length ≤ j := hstepped.adders_length.trans hj
        rw [List.any_append, hnew j hlt]
        have hnone : s.adders[j]? = none := List.getElem?_eq_none hlt
        cases l <;> simp [observesShutdown, hnone]
  exact key.1 i a ha

/-! ## The bound on `queue_size` -/

/-- The part of the queue that the bound is about. -/
structure SizeView where
  size : ℤ
  capacity : ℕ
  shutdown : Bool

/-- The view of a state. -/
def State.sizeView (s : State) : SizeView :=
  ⟨s.pool.queueSize, s.pool.queueMaxSize, s.pool.shutdown⟩

/-- The bound while a call is inside the critical section: past line 122 there is room. -/
def Adder.sizeAssertion (a : Adder) (v : SizeView) : Prop :=
  match a.pc with
  | .ifShutdown => v.size ≤ v.capacity ∧ (v.shutdown = false → v.size < v.capacity)
  | .ifArgs | .freeArgs | .nullArgs | .storeArgs | .storeFunction | .moveRear | .incSize =>
    v.size < v.capacity
  | _ => v.size ≤ v.capacity

/-- The bound on `queue_size` as the resource of `pool->lock`. -/
def sizeMonitor : Monitor Local SizeView where
  holds := Local.holds
  free v := v.size ≤ v.capacity
  inside
    | .add a, v => a.sizeAssertion v
    | .work _, v => v.size ≤ v.capacity
    | .manage _, v => v.size ≤ v.capacity

/-- What threads other than calls do: `queue_size` may fall and `shutdown` may be set. -/
structure SizeView.Lowered (v v' : SizeView) : Prop where
  size : v'.size ≤ v.size
  capacity : v'.capacity = v.capacity
  shutdown : v.shutdown = true → v'.shutdown = true

theorem SizeView.Lowered.stable {v v' : SizeView} (h : v.Lowered v') :
    Stable sizeMonitor v v' := by
  obtain ⟨hsize, hcap, hshut⟩ := h
  have hle : v.size ≤ v.capacity → v'.size ≤ v'.capacity := by
    intro hle
    rw [hcap]
    exact hsize.trans hle
  have hlt : v.size < v.capacity → v'.size < v'.capacity := by
    intro hlt
    rw [hcap]
    exact hsize.trans_lt hlt
  refine ⟨hle, ?_⟩
  rintro (a | w | m) - hin
  · change a.sizeAssertion v at hin
    show a.sizeAssertion v'
    unfold Adder.sizeAssertion at hin ⊢
    split at hin
    case h_1 =>
      refine ⟨hle hin.1, fun hs => hlt (hin.2 ?_)⟩
      by_contra hne
      rw [hshut (by simpa using hne)] at hs
      cases hs
    case h_9 => exact hle hin
    all_goals exact hlt hin
  · exact hle hin
  · exact hle hin

/-- A thread that only lowers the view owes nothing else to the bound. -/
theorem SizeView.Lowered.owes {v v' : SizeView} (h : v.Lowered v') {x x' : Local}
    (hx : ∀ u, sizeMonitor.inside x u ↔ u.size ≤ u.capacity)
    (hx' : ∀ u, sizeMonitor.inside x' u ↔ u.size ≤ u.capacity) :
    sizeMonitor.Owes x x' v v' := by
  unfold Owes
  split
  · exact h.stable
  · rw [hx']
    exact h.stable.1
  · rw [hx, hx']
    exact h.stable.1
  · rw [hx]
    exact h.stable.1

theorem threadpoolThread_size {me : Thread} {n : ℕ} {p p' : Pool} {w w' : Worker} {e : Effect}
    (h : threadpoolThread me n p w = some (p', w', e)) : p'.queueSize ≤ p.queueSize := by
  obtain ⟨pc, task, number⟩ := w
  cases pc <;> simp only [threadpoolThread] at h
  all_goals try split at h
  all_goals cases h
  all_goals simp

theorem threadpoolAdd_size {me : Thread} {p p' : Pool} {a a' : Adder} {e : Effect}
    (h : threadpoolAdd me p a = some (p', a', e)) (hrel : a'.released = false) :
    sizeMonitor.Owes (.add a) (.add a') ⟨p.queueSize, p.queueMaxSize, p.shutdown⟩
      ⟨p'.queueSize, p'.queueMaxSize, p'.shutdown⟩ := by
  obtain ⟨hrel₀, hpc⟩ := threadpoolAdd_released h hrel
  obtain ⟨pc, f, x, released, unlocks⟩ := a
  obtain rfl : released = false := hrel₀
  cases pc <;> simp only [threadpoolAdd] at h
  case unlockShutdown => exact absurd rfl hpc
  case blocked | returned => cases h
  case whileFull =>
    split at h
    · cases h
      exact id
    · next hloop =>
      cases h
      intro (hle : p.queueSize ≤ p.queueMaxSize)
      exact ⟨hle, fun hs => lt_of_le_of_ne hle fun hsize => hloop ⟨hs, hsize⟩⟩
  case ifShutdown =>
    split at h
    · cases h
      exact fun hin => hin.1
    · next hs =>
      cases h
      exact fun hin => hin.2 (by simpa using hs)
  case incSize =>
    cases h
    intro (hlt : p.queueSize < p.queueMaxSize)
    exact Int.add_one_le_iff.mpr hlt
  all_goals try split at h
  all_goals cases h
  all_goals exact id

theorem size_obligations {s s' : State} {l : Label} (hstep : Stepped s l s') :
    Obligations sizeMonitor State.sizeView s l s' where
  add _ _ hadd hrel hap := by
    have hsize := threadpoolAdd_size hadd hrel
    simpa [State.sizeView, hap.pool, State.setAdder] using hsize
  work _ _ hwork hap := by
    have hpool : s'.pool = _ := hap.pool
    refine SizeView.Lowered.owes ⟨?_, ?_, ?_⟩ (fun _ => Iff.rfl) fun _ => Iff.rfl
    · rw [State.sizeView, hpool]
      exact threadpoolThread_size hwork
    · rw [State.sizeView, hpool, State.setWorker, threadpoolThread_frame hwork]
      rfl
    · rw [State.sizeView, State.sizeView, hpool, State.setWorker, threadpoolThread_frame hwork]
      exact id
  adjust _ hadj hap := by
    have hpool : s'.pool = _ := hap.pool
    have hview : s'.sizeView = s.sizeView := by
      rw [State.sizeView, hpool, adjustThread_frame hadj]
      rfl
    rw [hview]
    exact SizeView.Lowered.owes ⟨le_rfl, rfl, id⟩ (fun _ => Iff.rfl) fun _ => Iff.rfl
  passive hadd hwork hadj := by
    cases hstep with
    | add => exact absurd rfl (hadd _ _)
    | work => exact absurd rfl (hwork _)
    | adjust => exact absurd rfl (hadj _ _)
    | call | wakeAdd | wakeWork => exact Stable.of_eq rfl
    | destroy hdes happ =>
      have hpool := (applied_of_apply happ).pool
      obtain ⟨hp, hshut⟩ := threadpoolDestroy_frame hdes
      refine SizeView.Lowered.stable ⟨?_, ?_, ?_⟩
      · rw [State.sizeView, hpool, hp]
        exact le_rfl
      · rw [State.sizeView, hpool, hp]
        rfl
      · rw [State.sizeView, State.sizeView, hpool]
        exact hshut

/-- Mutual exclusion and the bound, for every run in which no call has executed line 123. -/
theorem sizeInv_of_run {c : Config} {m : Memory} {h : History} {s : State}
    (hrun : (threadpool c m).Run h s) :
    NoEarlyUnlock s → sizeMonitor.Inv (s.view State.sizeView) := by
  refine hrun.invariant_on (C := NoEarlyUnlock)
    (I := fun s => sizeMonitor.Inv (s.view State.sizeView))
    (fun s l s' hstep => (stepped_of_run hstep).noEarlyUnlock) ?_ ?_
  · rintro s rfl -
    refine created_monitorInv (fun _ => rfl) ?_
    exact Int.natCast_nonneg _
  · intro s l s' _ hstep _ hrel hinv
    exact monitorInv_step (fun _ => rfl) (stepped_of_run hstep) hrel
      (size_obligations (stepped_of_run hstep)) hinv

/-- The thread that unlocks the mutex in a step is in a critical section. -/
theorem thread_of_unlocker {e : Event State Label} (hrel : NoEarlyUnlock e.pre) {t : Thread}
    (ht : unlocker e = some t) : ∃ x, e.pre.thread t = some x ∧ x.holds = true := by
  obtain ⟨s, l, s'⟩ := e
  cases l with
  | add i choice =>
    cases ha : s.adders[i]? with
    | none => simp [unlocker, ha] at ht
    | some a =>
      simp only [unlocker, ha, Option.any_some, decide_eq_true_eq, Option.ite_none_right_eq_some,
        Option.some.injEq] at ht
      obtain ⟨hpc, rfl⟩ := ht
      refine ⟨.add a, by simp [State.thread, ha], ?_⟩
      have hrel' : a.released = false := hrel a (List.mem_of_getElem? ha)
      rcases hpc with hpc | hpc <;> simp [Local.holds, Adder.holds, hpc, hrel']
  | work i =>
    cases hw : s.workers[i]? with
    | none => simp [unlocker, hw] at ht
    | some w =>
      simp only [unlocker, hw, Option.any_some, decide_eq_true_eq, Option.ite_none_right_eq_some,
        Option.some.injEq] at ht
      obtain ⟨hpc, rfl⟩ := ht
      refine ⟨.work w, by simp [State.thread, hw], ?_⟩
      rcases hpc with hpc | hpc | hpc <;> simp [Local.holds, Worker.holds, hpc]
  | adjust answer choice =>
    simp only [unlocker, Option.ite_none_right_eq_some, Option.some.injEq] at ht
    obtain ⟨hpc, rfl⟩ := ht
    refine ⟨.manage s.adjust, rfl, ?_⟩
    rcases hpc with hpc | hpc | hpc <;> simp [Local.holds, Adjust.holds, hpc]
  | call | destroy | wakeAdd | wakeWork => cases ht

/-- A run in which no call finds `shutdown` set at line 122 has no unlock of line 123. -/
theorem noEarlyUnlock_of_no_branch {c : Config} {m : Memory} {h : History} {s : State}
    (hrun : (threadpool c m).Run h s) (hnone : ∀ e ∈ h, ∀ i, observesShutdown i e = false) :
    NoEarlyUnlock s := by
  intro a ha
  obtain ⟨i, hi⟩ := List.getElem?_of_mem ha
  have hledger := ledger_of_run hrun hi
  have hobs : h.any (observesShutdown i) = false := by
    simpa [List.any_eq_false] using fun e he => hnone e he i
  rw [hobs] at hledger
  unfold Adder.Ledger at hledger
  split at hledger
  case h_1 | h_2 | h_3 | h_4 | h_5 | h_6 => exact hledger.2.1
  case h_7 => cases hledger.1
  all_goals exact hledger.1

/-- A call that found `shutdown` set and has returned has unlocked the mutex twice. -/
theorem unlocks_of_run {c : Config} {m : Memory} {h : History} {s : State}
    (hrun : (threadpool c m).Run h s) {i : ℕ} {a : Adder} (ha : s.adders[i]? = some a)
    (hpc : a.pc = .returned) (hobs : ∃ e ∈ h, observesShutdown i e = true) : a.unlocks = 2 := by
  have hledger := ledger_of_run hrun ha
  rw [List.any_eq_true.mpr hobs] at hledger
  simp only [Adder.Ledger, hpc] at hledger
  exact hledger.2

/-- **When `threadpool_add` is atomic.**  It is in every run in which no call finds `shutdown`
set at line 122, and it is not in any run in which a call that did has returned. -/
theorem add_atomic_of_no_shutdown_branch (c : Config) (m : Memory) (h : History) (s : State)
    (hrun : (threadpool c m).Run h s) :
    ((∀ e ∈ h, ∀ i, observesShutdown i e = false) → AddAtomic h s) ∧
    ((∃ i a, s.adders[i]? = some a ∧ a.pc = .returned ∧
      ∃ e ∈ h, observesShutdown i e = true) → ¬ AddAtomic h s) := by
  constructor
  · intro hnone
    have hrel := noEarlyUnlock_of_no_branch hrun hnone
    refine ⟨fun i e₁ e₂ hsub hobs => ?_, fun i a _ hobs => ?_, fun e he t ht => ?_, ?_⟩
    · rw [hnone e₁ (hsub.subset List.mem_cons_self) i] at hobs
      cases hobs
    · obtain ⟨e, he, hobs⟩ := hobs
      rw [hnone e he i] at hobs
      cases hobs
    · -- Before the step the thread is in a critical section, so the mutex is its own.
      obtain ⟨h₀, hpre, hrun₀, -⟩ := hrun.of_mem he
      have hnone₀ : ∀ e' ∈ h₀, ∀ i, observesShutdown i e' = false := fun e' he' =>
        hnone e' (hpre.subset (List.mem_append_left _ he'))
      have hrel₀ := noEarlyUnlock_of_no_branch hrun₀ hnone₀
      exact ((sizeInv_of_run hrun₀ hrel₀).owner_iff t).2 (thread_of_unlocker hrel₀ ht)
    · have hinv := sizeInv_of_run hrun hrel
      cases hlock : s.pool.lock with
      | none => exact hinv.free hlock
      | some t =>
        obtain ⟨x, hx, hh⟩ := (hinv.owner_iff t).1 hlock
        have hin := hinv.inside t x hx hh
        rcases x with a | w | m
        · change a.sizeAssertion s.sizeView at hin
          unfold Adder.sizeAssertion at hin
          split at hin
          case h_1 => exact hin.1
          case h_9 => exact hin
          all_goals exact le_of_lt hin
        · exact hin
        · exact hin
  · rintro ⟨i, a, ha, hpc, hobs⟩ hatomic
    have hone := hatomic.unlocks_once i a ha hobs hpc
    have htwo := unlocks_of_run hrun ha hpc hobs
    omega

/-- The pool is destroyed when a call is past its test of `shutdown`, and the call returns. -/
theorem add_atomic_before_shutdown :
    ∃ h s, (threadpool ⟨1, 1, 1⟩ .cleared).Run h s ∧ s.pool.queueSize = 1 ∧
      s.pool.shutdown = true ∧ AddAtomic h s := by
  obtain ⟨h, s, hrun, hP⟩ := exists_run_of_schedule ⟨1, 1, 1⟩ .cleared
    (.call 1 1 :: List.replicate 4 (.add 0 0) ++ [.destroy, .destroy] ++
      List.replicate 6 (.add 0 0))
    (fun h s => decide (s.pool.queueSize = 1) && s.pool.shutdown &&
      h.all fun e => !observesShutdown 0 e && decide (e.pre.adders.length ≤ 1))
    (by decide +kernel)
  simp only [Bool.and_eq_true, Bool.not_eq_true', decide_eq_true_eq, List.all_eq_true] at hP
  obtain ⟨⟨hsize, hshut⟩, hnone⟩ := hP
  refine ⟨h, s, hrun, hsize, hshut,
    (add_atomic_of_no_shutdown_branch _ _ h s hrun).1 fun e he i => ?_⟩
  obtain ⟨hfirst, hone⟩ := hnone e he
  cases i with
  | zero => exact hfirst
  | succ i =>
    have hother : e.pre.adders[i + 1]? = none := List.getElem?_eq_none (by omega)
    unfold observesShutdown
    split
    · simp [hother]
    · rfl

/-- The queue is full when the pool is destroyed; a call then frees the argument of the queued
task and overwrites it, and `queue_size` is two in a queue of capacity one. -/
theorem add_not_atomic :
    ¬ ∀ (c : Config) (m : Memory) (h : History) (s : State), 0 < c.threadMinNum →
      c.threadMinNum ≤ c.threadMaxNum → 1 ≤ c.queueMaxSize → (threadpool c m).Run h s →
      AddAtomic h s := by
  intro hclaim
  obtain ⟨h, s, hrun, hP⟩ := exists_run_of_schedule ⟨1, 1, 1⟩ .cleared
    (addSchedule 0 1 1 ++ [.destroy, .destroy] ++ .call 1 2 :: List.replicate 12 (.add 1 0))
    (fun _ s => decide (s.pool.queueSize = 2) && decide (s.pool.queueMaxSize = 1) &&
      decide (s.freed = [1])) (by decide +kernel)
  simp only [Bool.and_eq_true, decide_eq_true_eq] at hP
  obtain ⟨⟨hsize, hcap⟩, -⟩ := hP
  have hle := (hclaim _ _ _ _ (by decide) (by decide) (by decide) hrun).size_le
  rw [hsize, hcap] at hle
  cases hle

end LinuxExercise.ThreadPool
