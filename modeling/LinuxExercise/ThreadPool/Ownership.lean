import LinuxExercise.Framework.Threads
import LinuxExercise.ThreadPool.Queue

/-!
# Who owns the argument that line 128 frees

A call that finds an argument in the slot at `queue_rear` frees it, on the grounds that the
slot's task has been executed.  What is certain is less: the slot's task was accepted
`queue_max_size` places earlier, and it has been *taken* (`Coupled.accepted_le`); its function
may still be running.  On the first lap the slot holds what `malloc` left there.

The pointers freed so far are the arguments of the positions before the next one
(`ownMonitor`), each passed by a call of its own (`accepted_countP`).  So when all calls pass
fresh pointers, the only way to go wrong is that the task of the slot has not returned, or
that the pointer is a leftover of the first lap (`owns_args_iff_reused_returned`).
-/

namespace LinuxExercise.ThreadPool

open Monitor

/-! ## What may be freed -/

/-- The pointer that the step frees at line 128. -/
def freedArgs (e : Event State Label) : Option ℕ :=
  match e.label with
  | .add i _ =>
    if (e.pre.adders[i]?).any fun a => decide (a.pc = .freeArgs) then
      some (e.pre.pool.slot e.pre.pool.queueRear).args
    else none
  | _ => none

/-- The argument pointers that calls have been passed, in order. -/
def passedArgs (h : History) : List ℕ :=
  h.filterMap fun e =>
    match e.label with
    | .call _ x => some x
    | _ => none

/-- Every call passes a pointer that is not `NULL` and that no other call passes. -/
structure FreshArgs (h : History) : Prop where
  ne_null : ∀ x ∈ passedArgs h, x ≠ 0
  nodup : (passedArgs h).Nodup

/-- Line 128 never frees the argument of a task that is queued or being executed, nor a pointer
it has freed before. -/
def OwnsArgs (h : History) : Prop :=
  ∀ e ∈ h, ∀ x, freedArgs e = some x →
    (∀ t ∈ e.pre.pool.queued, t.args ≠ x) ∧
    (∀ w ∈ e.pre.workers, w.hasTask = true → w.task.args ≠ x) ∧
    x ∉ e.pre.freed

/-- The task with this acceptance number has been taken and its function has returned. -/
def State.hasReturned (s : State) (number : ℕ) : Prop :=
  number < s.taken.length ∧ ∀ w ∈ s.workers, w.hasTask = true → w.number ≠ number

/-- When line 128 frees the argument of the task accepted `queue_max_size` places earlier, that
task has returned and the pointer is not one of the uninitialised ones, which are freed on the
first lap; on the first lap no uninitialised pointer is freed twice, and none that is the
argument of a task that has not returned. -/
def ReusedReturned (c : Config) (m : Memory) (h : History) : Prop :=
  ∀ e ∈ h, ∀ x, freedArgs e = some x →
    (c.queueMaxSize ≤ e.pre.accepted.length →
      e.pre.hasReturned (e.pre.accepted.length - c.queueMaxSize) ∧
        x ∉ (m.ring c).map Task.args) ∧
    (e.pre.accepted.length < c.queueMaxSize →
      x ∉ ((m.ring c).take e.pre.accepted.length).map Task.args ∧
        ∀ k t, e.pre.accepted[k]? = some t → t.args = x → e.pre.hasReturned k)

/-! ## The pointers freed so far -/

/-- The part of the state that the frees are about. -/
structure OwnView where
  accepted : List Task
  freed : List ℕ

/-- The view of a state. -/
def State.ownView (s : State) : OwnView := ⟨s.accepted, s.freed⟩

/-- The arguments of the first `k` positions, less the `NULL`s, have been freed. -/
def OwnView.FreedTo (ring : List Task) (k : ℕ) (v : OwnView) : Prop :=
  v.freed = (((ring ++ v.accepted).take k).map Task.args).filter fun x => decide (x ≠ 0)

/-- The freed pointers while a call is inside the critical section. -/
def Adder.ownAssertion (ring : List Task) (a : Adder) (v : OwnView) : Prop :=
  match a.pc with
  | .freeArgs => v.FreedTo ring v.accepted.length ∧
      ∃ t, (ring ++ v.accepted)[v.accepted.length]? = some t ∧ t.args ≠ 0
  | .nullArgs | .storeArgs | .storeFunction | .moveRear | .incSize =>
    v.FreedTo ring (v.accepted.length + 1)
  | _ => v.FreedTo ring v.accepted.length

/-- The freed pointers as a resource of `pool->lock`. -/
def ownMonitor (ring : List Task) : Monitor Local OwnView where
  holds := Local.holds
  free v := v.FreedTo ring v.accepted.length
  inside
    | .add a, v => a.ownAssertion ring v
    | .work _, v => v.FreedTo ring v.accepted.length
    | .manage _, v => v.FreedTo ring v.accepted.length

/-- A `NULL` position adds nothing to the freed pointers. -/
theorem OwnView.FreedTo.skip {ring : List Task} {k : ℕ} {v : OwnView} (h : v.FreedTo ring k)
    {t : Task} (ht : (ring ++ v.accepted)[k]? = some t) (hnull : t.args = 0) :
    v.FreedTo ring (k + 1) := by
  unfold FreedTo at h ⊢
  rw [List.take_add_one, ht, List.map_append, List.filter_append, ← h]
  simp [hnull]

/-- Freeing the argument of the next position. -/
theorem OwnView.FreedTo.free {ring : List Task} {k : ℕ} {v : OwnView} (h : v.FreedTo ring k)
    {t : Task} (ht : (ring ++ v.accepted)[k]? = some t) (hne : t.args ≠ 0) :
    OwnView.FreedTo ring (k + 1) { v with freed := v.freed ++ [t.args] } := by
  unfold FreedTo at h ⊢
  rw [List.take_add_one, ht, List.map_append, List.filter_append, ← h]
  simp [hne]

/-- Accepting a task adds a position at the end. -/
theorem OwnView.FreedTo.accept {ring : List Task} {v : OwnView} (hpos : 0 < ring.length)
    (h : v.FreedTo ring (v.accepted.length + 1)) (t : Task) :
    OwnView.FreedTo ring (v.accepted ++ [t]).length { v with accepted := v.accepted ++ [t] } := by
  unfold FreedTo at h ⊢
  rw [List.length_append, List.length_singleton, ← List.append_assoc,
    List.take_append_of_le_length (by rw [List.length_append]; omega)]
  exact h

/-- The slot at `queue_rear` holds the next position. -/
theorem Coupled.rear_slot {ring : List Task} {behind : ℕ} {q : QueueView}
    (h : Coupled ring 0 0 behind q) :
    ∃ t, (ring ++ q.accepted)[q.accepted.length]? = some t ∧
      q.taskQueue[q.queueRear]? = some t := by
  have hpos := h.pos
  have hlen := h.lap_length
  have hlt : q.accepted.length < (ring ++ q.accepted).length := by rw [hlen, h.length]; omega
  refine ⟨_, List.getElem?_eq_getElem hlt, ?_⟩
  rw [h.rear_eq, ← List.getElem?_eq_getElem hlt]
  exact h.laps _ le_rfl hlt

section Owes

variable {ring : List Task} {s : State}

theorem threadpoolAdd_own {me : Thread} {p' : Pool} {a a' : Adder} {e : Effect}
    (hpos : 0 < ring.length) (h : threadpoolAdd me s.pool a = some (p', a', e))
    (hrel : a'.released = false)
    (hslot : a.pc = .ifArgs ∨ a.pc = .freeArgs → ∃ t,
      (ring ++ s.accepted)[s.accepted.length]? = some t ∧ s.pool.slot s.pool.queueRear = t) :
    (ownMonitor ring).Owes (.add a) (.add a') s.ownView
      ⟨s.accepted ++ e.accepts, s.freed ++ e.frees⟩ := by
  obtain ⟨hrel₀, hpc⟩ := threadpoolAdd_released h hrel
  obtain ⟨pc, f, x, released, unlocks⟩ := a
  obtain rfl : released = false := hrel₀
  cases pc <;> simp only [threadpoolAdd] at h
  case blocked | returned => cases h
  case unlockShutdown => exact absurd rfl hpc
  case incSize =>
    cases h
    simp only [Effect.accepts, Effect.frees, List.append_nil]
    exact fun hin => OwnView.FreedTo.accept hpos hin _
  case freeArgs =>
    obtain ⟨t, ht, hslot⟩ := hslot (.inr rfl)
    cases h
    simp only [Effect.accepts, Effect.frees, List.append_nil, hslot]
    rintro ⟨hin, t', ht', hne⟩
    obtain rfl := Option.some.inj (ht.symm.trans ht')
    exact hin.free ht hne
  case ifArgs =>
    obtain ⟨t, ht, hslot⟩ := hslot (.inl rfl)
    rw [hslot] at h
    split at h
    · next hnull =>
      cases h
      simp only [Effect.accepts, Effect.frees, List.append_nil]
      intro (hin : s.ownView.FreedTo ring s.accepted.length)
      exact hin.skip ht hnull
    · next hne =>
      cases h
      simp only [Effect.accepts, Effect.frees, List.append_nil]
      exact fun hin => ⟨hin, t, ht, hne⟩
  all_goals try split at h
  all_goals cases h
  all_goals simp only [Effect.accepts, Effect.frees, List.append_nil]
  all_goals exact id

/-- A step that neither accepts a task nor frees a pointer owes nothing, unless it is a call's. -/
theorem ownMonitor_owes_of_eq {v v' : OwnView} (hv : v' = v) {x x' : Local}
    (hx : ∀ u, (ownMonitor ring).inside x u ↔ u.FreedTo ring u.accepted.length)
    (hx' : ∀ u, (ownMonitor ring).inside x' u ↔ u.FreedTo ring u.accepted.length) :
    (ownMonitor ring).Owes x x' v v' := by
  subst hv
  unfold Owes
  split
  · exact ⟨id, fun _ _ => id⟩
  · rw [hx']
    exact id
  · rw [hx, hx']
    exact id
  · rw [hx]
    exact id

end Owes

/-! ## The invariant of the freed pointers -/

theorem Applied.ownView {s s₁ s' : State} {e : Effect} (h : Applied s₁ e s')
    (hacc : s₁.accepted = s.accepted) (hfreed : s₁.freed = s.freed) :
    s'.ownView = ⟨s.accepted ++ e.accepts, s.freed ++ e.frees⟩ := by
  simp [State.ownView, h.accepted, h.freed, hacc, hfreed]

theorem own_obligations {c : Config} {m : Memory} {s s' : State} {l : Label}
    (hpos : 1 ≤ c.queueMaxSize) (hstep : Stepped s l s') (hqueue : QueueInv c m s) :
    Obligations (ownMonitor (m.ring c)) State.ownView s l s' where
  add {i choice a a' p e} _ ha hadd hrel hap := by
    rw [hap.ownView (s := s) rfl rfl]
    refine threadpoolAdd_own (by simp [Memory.ring]; omega) hadd hrel fun hpc => ?_
    have hrel₀ := (threadpoolAdd_released hadd hrel).1
    have hin := hqueue.add ha (by rcases hpc with hpc | hpc <;> simp [Adder.holds, hpc, hrel₀])
    have hcoupled : Coupled (m.ring c) 0 0 0 s.queue := by
      rcases hpc with hpc | hpc
      all_goals simp only [Adder.queueAssertion, hpc] at hin
      all_goals exact hin.1
    obtain ⟨t, ht, hslot⟩ := hcoupled.rear_slot
    exact ⟨t, ht, Pool.slot_eq hslot⟩
  work {i w w' p e} _ _ hwork hap := by
    obtain ⟨-, -, -, -, hacc, hfree⟩ := threadpoolThread_effect hwork
    refine ownMonitor_owes_of_eq ?_ (fun _ => Iff.rfl) fun _ => Iff.rfl
    rw [hap.ownView (s := s) rfl rfl, hacc, hfree, List.append_nil, List.append_nil]
    rfl
  adjust {answer choice m' p e} _ hadj hap := by
    refine ownMonitor_owes_of_eq ?_ (fun _ => Iff.rfl) fun _ => Iff.rfl
    rw [hap.ownView (s := s) rfl rfl]
    rcases adjustThread_effect hadj with rfl | rfl | rfl <;>
      simp [State.ownView, Effect.accepts, Effect.frees]
  passive hadd hwork hadj := by
    cases hstep with
    | add => exact absurd rfl (hadd _ _)
    | work => exact absurd rfl (hwork _)
    | adjust => exact absurd rfl (hadj _ _)
    | call | wakeAdd | wakeWork => exact Stable.of_eq rfl
    | destroy hdes happ =>
      apply Stable.of_eq
      rw [(applied_of_apply happ).ownView (s := s) rfl rfl]
      rcases threadpoolDestroy_effect hdes with rfl | rfl | rfl <;>
        simp [State.ownView, Effect.accepts, Effect.frees]

theorem ownInv_of_run {c : Config} {m : Memory} (hpos : 1 ≤ c.queueMaxSize) {h : History}
    {s : State} (hrun : (threadpool c m).Run h s) :
    NoEarlyUnlock s → (ownMonitor (m.ring c)).Inv (s.view State.ownView) := by
  refine hrun.invariant_on (C := NoEarlyUnlock)
    (I := fun s => (ownMonitor (m.ring c)).Inv (s.view State.ownView))
    (fun s l s' hstep => (stepped_of_run hstep).noEarlyUnlock) ?_ ?_
  · rintro s rfl -
    exact created_monitorInv (fun _ => rfl) rfl
  · intro s l s' hreach hstep hrel hrel' hinv
    obtain ⟨h, hr⟩ := hreach
    exact monitorInv_step (fun _ => rfl) (stepped_of_run hstep) hrel'
      (own_obligations hpos (stepped_of_run hstep) (queueInv_of_run hpos hr hrel)) hinv

/-! ## Every accepted task is a call's own -/

/-- The call's task has been counted in. -/
def Adder.hasPassed (a : Adder) : Bool :=
  match a.pc with
  | .signal | .unlock | .returned => true
  | _ => false

@[simp] theorem Adder.wake_args (a : Adder) : a.wake.args = a.args := by
  unfold Adder.wake
  split <;> rfl

@[simp] theorem Adder.wake_hasPassed (a : Adder) : a.wake.hasPassed = a.hasPassed := by
  by_cases h : a.pc = .blocked
  · simp [Adder.wake, Adder.hasPassed, h]
  · rw [Adder.wake_eq_self h]

theorem threadpoolAdd_args {me : Thread} {p p' : Pool} {a a' : Adder} {e : Effect}
    (h : threadpoolAdd me p a = some (p', a', e)) : a'.args = a.args := by
  obtain ⟨pc, f, x, released, unlocks⟩ := a
  cases pc <;> simp only [threadpoolAdd] at h
  all_goals try split at h
  all_goals cases h
  all_goals rfl

/-- A statement accepts a task exactly when the call passes line 136. -/
theorem threadpoolAdd_hasPassed {me : Thread} {p p' : Pool} {a a' : Adder} {e : Effect}
    (h : threadpoolAdd me p a = some (p', a', e)) :
    (e.accepts = [] ∧ a'.hasPassed = a.hasPassed) ∨
    (e.accepts = [a.task] ∧ a.hasPassed = false ∧ a'.hasPassed = true) := by
  obtain ⟨pc, f, x, released, unlocks⟩ := a
  cases pc <;> simp only [threadpoolAdd] at h
  all_goals try split at h
  all_goals cases h
  all_goals simp [Effect.accepts, Adder.hasPassed]

/-- The calls that pass the pointer `x` and whose task has been counted in. -/
def Adder.passes (x : ℕ) (a : Adder) : Bool := a.hasPassed && decide (a.args = x)

theorem accepted_countP {c : Config} {m : Memory} {h : History} {s : State}
    (hrun : (threadpool c m).Run h s) (x : ℕ) :
    s.accepted.countP (fun t => decide (t.args = x)) = s.adders.countP (Adder.passes x) := by
  have hwake : ∀ a : Adder, Adder.passes x a.wake = Adder.passes x a := by simp [Adder.passes]
  refine hrun.invariant (I := fun s =>
    s.accepted.countP (fun t => decide (t.args = x)) = s.adders.countP (Adder.passes x)) ?_ ?_
  · rintro s rfl
    rfl
  · intro s l s' _ hstep ih
    -- A step that accepts nothing and at most wakes calls changes neither count.
    have quiet : ∀ {s₁ e}, Applied s₁ e s' → s₁.adders = s.adders → s₁.accepted = s.accepted →
        e.accepts = [] → s'.accepted.countP (fun t => decide (t.args = x)) =
          s'.adders.countP (Adder.passes x) := by
      intro s₁ e hap hadders hacc he
      rw [hap.accepted, hap.adders, he, List.append_nil, hacc, hadders, ih]
      split
      · rw [countP_map_of_eq hwake]
      · rfl
    cases stepped_of_run hstep with
    | call f y =>
      rw [List.countP_append, ← ih]
      simp [Adder.passes, Adder.hasPassed]
    | @add i choice a a' p e _ ha hadd happ =>
      have hap := applied_of_apply happ
      have hadders := hap.adders_of_add hadd
      have hcount := countP_set_add (p := Adder.passes x) (b := a') ha
      have hacc : s'.accepted = s.accepted ++ e.accepts := hap.accepted
      rw [hadders, hacc, List.countP_append, ih]
      have hargs := threadpoolAdd_args hadd
      rcases threadpoolAdd_hasPassed hadd with ⟨he, hpass⟩ | ⟨he, hpass, hpass'⟩
      · have hsame : Adder.passes x a' = Adder.passes x a := by
          simp [Adder.passes, hargs, hpass]
        rw [hsame] at hcount
        rw [he, List.countP_nil]
        omega
      · have hbefore : Adder.passes x a = false := by simp [Adder.passes, hpass]
        have hafter : Adder.passes x a' = decide (a.args = x) := by
          simp [Adder.passes, hargs, hpass']
        rw [hbefore, hafter] at hcount
        rw [he, List.countP_singleton]
        simp only [Bool.false_eq_true, if_false, Nat.add_zero] at hcount
        exact hcount.symm
    | work _ hwork happ =>
      exact quiet (applied_of_apply happ) rfl rfl (threadpoolThread_effect hwork).2.2.2.2.1
    | adjust hadj happ =>
      apply quiet (applied_of_apply happ) rfl rfl
      rcases adjustThread_effect hadj with rfl | rfl | rfl <;> rfl
    | destroy hdes happ =>
      apply quiet (applied_of_apply happ) rfl rfl
      rcases threadpoolDestroy_effect hdes with rfl | rfl | rfl <;> rfl
    | @wakeAdd i a ha _ =>
      have hcount := countP_set_add (p := Adder.passes x) (b := a.wake) ha
      rw [hwake] at hcount
      show s.accepted.countP _ = (s.adders.set i a.wake).countP _
      omega
    | wakeWork => exact ih

/-- The calls are those of the history. -/
theorem adders_map_args {c : Config} {m : Memory} {h : History} {s : State}
    (hrun : (threadpool c m).Run h s) : s.adders.map Adder.args = passedArgs h := by
  refine hrun.ledger (J := fun h s => s.adders.map Adder.args = passedArgs h) ?_ ?_
  · rintro s rfl
    rfl
  · intro h s l s' _ hstep ih
    have hset : ∀ {i : ℕ} {a a' : Adder}, s.adders[i]? = some a → a'.args = a.args →
        (s.adders.set i a').map Adder.args = s.adders.map Adder.args := by
      intro i a a' ha hargs
      rw [List.map_set, hargs]
      refine List.ext_getElem? fun j => ?_
      by_cases hij : i = j
      · subst hij
        obtain ⟨hlt, hget⟩ := List.getElem?_eq_some_iff.mp ha
        simp [hlt, hget]
      · simp [hij]
    have quiet : ∀ {s₁ e}, Applied s₁ e s' → s₁.adders.map Adder.args = s.adders.map Adder.args →
        s'.adders.map Adder.args = s.adders.map Adder.args := by
      intro s₁ e hap hadders
      rw [hap.adders]
      split
      · rw [← hadders, List.map_map]
        exact List.map_congr_left fun a _ => by simp
      · exact hadders
    unfold passedArgs at ih ⊢
    rw [List.filterMap_append, ← ih]
    cases stepped_of_run hstep with
    | call f x => simp
    | add ha hadd happ =>
      simpa using quiet (applied_of_apply happ) (hset ha (threadpoolAdd_args hadd))
    | work _ _ happ | adjust _ happ | destroy _ happ =>
      simpa using quiet (applied_of_apply happ) rfl
    | wakeAdd ha => simpa [State.setAdder] using hset ha (Adder.wake_args _)
    | wakeWork => simp [State.setWorker]

/-- Tasks accepted from calls that pass fresh pointers have different arguments. -/
theorem accepted_args_nodup {c : Config} {m : Memory} {h : History} {s : State}
    (hrun : (threadpool c m).Run h s) (hfresh : FreshArgs h) :
    (s.accepted.map Task.args).Nodup := by
  rw [List.nodup_iff_count_le_one]
  intro x
  calc (s.accepted.map Task.args).count x
      = s.accepted.countP (fun t => decide (t.args = x)) := by
        rw [List.count_eq_countP, List.countP_map]
        exact List.countP_congr fun t _ => by simp
    _ = s.adders.countP (Adder.passes x) := accepted_countP hrun x
    _ ≤ s.adders.countP (fun a => decide (a.args = x)) :=
        List.countP_mono_left fun a _ ha => (Bool.and_eq_true_iff.mp ha).2
    _ = (passedArgs h).count x := by
        rw [← adders_map_args hrun, List.count_eq_countP, List.countP_map]
        exact List.countP_congr fun a _ => by simp
    _ ≤ 1 := List.nodup_iff_count_le_one.mp hfresh.nodup x

/-! ## When the free is safe -/

/-- A worker with a task has an accepted one, under its number. -/
theorem accepted_of_hasTask {c : Config} {m : Memory} (hpos : 1 ≤ c.queueMaxSize) {h : History}
    {s : State} (hrun : (threadpool c m).Run h s) (hrel : NoEarlyUnlock s) {w : Worker}
    (hw : w ∈ s.workers) (htask : w.hasTask = true) : s.accepted[w.number]? = some w.task := by
  obtain ⟨i, hi⟩ := List.getElem?_of_mem hw
  have htaken := taken_of_hasTask hrun hi htask
  obtain ⟨r, a, b, hcoupled⟩ := (queueInv_of_run hpos hrun hrel).coupled
  obtain ⟨rest, hrest⟩ := hcoupled.taken_prefix
  have hacc : s.taken ++ rest = s.accepted := hrest
  rw [← hacc, List.getElem?_append_left (List.getElem?_eq_some_iff.mp htaken).1]
  exact htaken

/-- What is known when a call is about to execute line 128. -/
structure AboutToFree (c : Config) (m : Memory) (s : State) (x : ℕ) : Prop where
  queued : s.pool.queued = s.accepted.drop s.taken.length
  room : s.accepted.length < s.taken.length + c.queueMaxSize
  position : ∃ t, (m.ring c ++ s.accepted)[s.accepted.length]? = some t ∧ t.args = x
  ne_null : x ≠ 0
  freed : s.freed =
    (((m.ring c ++ s.accepted).take s.accepted.length).map Task.args).filter
      fun y => decide (y ≠ 0)

theorem aboutToFree_of_event {c : Config} {m : Memory} (hpos : 1 ≤ c.queueMaxSize)
    {h : History} {e : Event State Label} (hrun : (threadpool c m).Run h e.pre)
    (hrel : NoEarlyUnlock e.pre) {x : ℕ} (hx : freedArgs e = some x) :
    AboutToFree c m e.pre x := by
  obtain ⟨s, l, s'⟩ := e
  cases l with
  | add i choice =>
    cases ha : s.adders[i]? with
    | none => simp [freedArgs, ha] at hx
    | some a =>
      simp only [freedArgs, ha, Option.any_some, decide_eq_true_eq,
        Option.ite_none_right_eq_some, Option.some.injEq] at hx
      obtain ⟨hpc, rfl⟩ := hx
      have hholds : a.holds = true := by
        have hrel' : a.released = false := hrel a (List.mem_of_getElem? ha)
        simp [Adder.holds, hpc, hrel']
      have hqueue := (queueInv_of_run hpos hrun hrel).add ha hholds
      have hown : a.ownAssertion (m.ring c) s.ownView :=
        (ownInv_of_run hpos hrun hrel).inside (.adder i) (.add a)
          (by simp [State.view, State.thread, ha]) hholds
      simp only [Adder.queueAssertion, hpc] at hqueue
      simp only [Adder.ownAssertion, hpc] at hown
      obtain ⟨hcoupled, hroom⟩ := hqueue
      obtain ⟨hfreed, t', ht', hne⟩ := hown
      obtain ⟨t, ht, hslot⟩ := hcoupled.rear_slot
      obtain rfl := Option.some.inj (ht.symm.trans ht')
      have hget : s.pool.slot s.pool.queueRear = t := Pool.slot_eq hslot
      have hcap : s.pool.queueMaxSize = c.queueMaxSize :=
        congrArg Config.queueMaxSize (config_of_run hrun)
      refine ⟨hcoupled.representsFifo.queued_eq, ?_, ⟨t, ht, by rw [hget]⟩, ?_, hfreed⟩
      · rw [← hcap]
        exact hroom
      · rw [hget]
        exact hne
  | _ => cases hx

/-- On a later lap the free is safe exactly when the task of the slot has returned and its
argument is not a leftover of the first lap. -/
theorem AboutToFree.owned_iff_later {c : Config} {m : Memory} (hpos : 1 ≤ c.queueMaxSize)
    {h : History} {s : State} (hrun : (threadpool c m).Run h s) (hrel : NoEarlyUnlock s)
    (hfresh : FreshArgs h) {x : ℕ} (hfree : AboutToFree c m s x)
    (hlap : c.queueMaxSize ≤ s.accepted.length) :
    ((∀ t ∈ s.pool.queued, t.args ≠ x) ∧
      (∀ w ∈ s.workers, w.hasTask = true → w.task.args ≠ x) ∧ x ∉ s.freed) ↔
    s.hasReturned (s.accepted.length - c.queueMaxSize) ∧ x ∉ (m.ring c).map Task.args := by
  have hring : (m.ring c).length = c.queueMaxSize := by simp [Memory.ring]
  have hnodup := accepted_args_nodup hrun hfresh
  obtain ⟨t, ht, rfl⟩ := hfree.position
  have hroom := hfree.room
  rw [List.getElem?_append_right (by omega), hring] at ht
  -- No other accepted task has the argument of the slot.
  have hunique : ∀ (k : ℕ) (u : Task), s.accepted[k]? = some u → u.args = t.args →
      k = s.accepted.length - c.queueMaxSize := by
    intro k u hu hargs
    have hk := (List.getElem?_eq_some_iff.mp hu).1
    refine (List.getElem?_inj (by simpa using hk) hnodup).mp ?_
    rw [List.getElem?_map, List.getElem?_map, hu, ht]
    simp [hargs]
  have hfreed : t.args ∈ s.freed ↔ t.args ∈ (m.ring c).map Task.args := by
    rw [hfree.freed, List.mem_filter, List.take_append, List.map_append, List.mem_append,
      List.take_of_length_le (by omega)]
    simp only [hfree.ne_null, ne_eq, not_false_eq_true, decide_true, and_true]
    refine or_iff_left fun hmem => ?_
    obtain ⟨u, hu, hargs⟩ := List.mem_map.mp hmem
    obtain ⟨k, hk⟩ := List.getElem?_of_mem hu
    obtain ⟨hlt, -⟩ := List.getElem?_eq_some_iff.mp hk
    rw [List.length_take] at hlt
    rw [List.getElem?_take_of_lt (by omega)] at hk
    have := hunique k u hk hargs
    omega
  rw [hfreed]
  constructor
  · rintro ⟨-, hexec, hfirst⟩
    refine ⟨⟨by omega, fun w hw htask hnum => hexec w hw htask ?_⟩, hfirst⟩
    have hacc := accepted_of_hasTask hpos hrun hrel hw htask
    rw [hnum, ht] at hacc
    rw [← Option.some.inj hacc]
  · rintro ⟨⟨-, hreturned⟩, hfirst⟩
    refine ⟨fun u hu hargs => ?_, fun w hw htask hargs => ?_, hfirst⟩
    · rw [hfree.queued] at hu
      obtain ⟨k, hk⟩ := List.getElem?_of_mem hu
      rw [List.getElem?_drop] at hk
      have := hunique _ u hk hargs
      omega
    · exact hreturned w hw htask
        (hunique _ _ (accepted_of_hasTask hpos hrun hrel hw htask) hargs)

/-- On the first lap the free is safe exactly when the leftover has not been freed and is not
the argument of a task that has not returned. -/
theorem AboutToFree.owned_iff_first {c : Config} {m : Memory} (hpos : 1 ≤ c.queueMaxSize)
    {h : History} {s : State} (hrun : (threadpool c m).Run h s) (hrel : NoEarlyUnlock s)
    {x : ℕ} (hfree : AboutToFree c m s x) (hlap : s.accepted.length < c.queueMaxSize) :
    ((∀ t ∈ s.pool.queued, t.args ≠ x) ∧
      (∀ w ∈ s.workers, w.hasTask = true → w.task.args ≠ x) ∧ x ∉ s.freed) ↔
    x ∉ ((m.ring c).take s.accepted.length).map Task.args ∧
      ∀ k t, s.accepted[k]? = some t → t.args = x → s.hasReturned k := by
  have hring : (m.ring c).length = c.queueMaxSize := by simp [Memory.ring]
  have hfreed : x ∈ s.freed ↔ x ∈ ((m.ring c).take s.accepted.length).map Task.args := by
    rw [hfree.freed, List.mem_filter, List.take_append_of_le_length (by omega)]
    simp [hfree.ne_null]
  rw [hfreed, hfree.queued]
  constructor
  · rintro ⟨hqueued, hexec, hfirst⟩
    refine ⟨hfirst, fun k t hk hargs => ⟨?_, fun w hw htask hnum => ?_⟩⟩
    · by_contra hge
      refine hqueued t (List.mem_of_getElem? (i := k - s.taken.length) ?_) hargs
      rw [List.getElem?_drop, Nat.add_sub_cancel' (by omega)]
      exact hk
    · have hacc := accepted_of_hasTask hpos hrun hrel hw htask
      rw [hnum, hk] at hacc
      apply hexec w hw htask
      rw [← Option.some.inj hacc, hargs]
  · rintro ⟨hfirst, hreturned⟩
    refine ⟨fun t ht hargs => ?_, fun w hw htask hargs => ?_, hfirst⟩
    · obtain ⟨k, hk⟩ := List.getElem?_of_mem ht
      rw [List.getElem?_drop] at hk
      have := (hreturned _ t hk hargs).1
      omega
    · have hacc := accepted_of_hasTask hpos hrun hrel hw htask
      exact (hreturned _ _ hacc hargs).2 w hw htask rfl

/-- **When line 128 may free.**  In a run of a running pool whose calls pass fresh pointers, the
frees of line 128 are safe if and only if every reused slot is that of a task that has
returned, and the uninitialised pointers of the first lap happen to be harmless. -/
theorem owns_args_iff_reused_returned (c : Config) (m : Memory) (hpos : 1 ≤ c.queueMaxSize)
    (h : History) (s : State) (hrun : (threadpool c m).Run h s)
    (hshut : s.pool.shutdown = false) (hfresh : FreshArgs h) :
    OwnsArgs h ↔ ReusedReturned c m h := by
  refine forall₂_congr fun e he => forall₂_congr fun x hx => ?_
  obtain ⟨h₀, hpre, hrun₀, hstep⟩ := hrun.of_mem he
  have hrel : NoEarlyUnlock e.pre := by
    refine noEarlyUnlock_of_running hrun₀ ((stepped_of_run hstep).running ?_)
    by_contra hne
    rw [hrun.stable (C := fun s => s.pool.shutdown = true)
      (fun s l s' hs => (stepped_of_run hs).shutdown) he (by simpa using hne)] at hshut
    cases hshut
  have hfresh₀ : FreshArgs h₀ := by
    have hsub : (passedArgs h₀).Sublist (passedArgs h) :=
      ((List.sublist_append_left h₀ [e]).trans hpre.sublist).filterMap _
    exact ⟨fun y hy => hfresh.ne_null y (hsub.subset hy), hsub.nodup hfresh.nodup⟩
  have hfree := aboutToFree_of_event hpos hrun₀ hrel hx
  rcases Nat.lt_or_ge e.pre.accepted.length c.queueMaxSize with hlap | hlap
  · rw [hfree.owned_iff_first hpos hrun₀ hrel hlap]
    simp [hlap, Nat.not_le.mpr hlap]
  · rw [hfree.owned_iff_later hpos hrun₀ hrel hfresh₀ hlap]
    simp [hlap, Nat.not_lt.mpr hlap]

/-- The first task has returned when the second call frees its argument. -/
theorem owns_args_after_return :
    ∃ h s, (threadpool ⟨1, 1, 1⟩ .cleared).Run h s ∧ s.freed = [1] ∧ OwnsArgs h := by
  obtain ⟨h, s, hrun, hP⟩ := exists_run_of_schedule ⟨1, 1, 1⟩ .cleared
    (addSchedule 0 1 1 ++ taskSchedule 0 ++ .work 0 :: .call 1 2 :: List.replicate 5 (.add 1 0))
    (fun h s => !s.pool.shutdown && decide (s.freed = [1]) && decide (passedArgs h = [1, 2]) &&
      h.all fun e => (freedArgs e).all fun x =>
        decide (x = 1) && decide (e.pre.accepted.length = 1) && decide (e.pre.taken.length = 1) &&
          e.pre.workers.all fun w => !w.hasTask) (by decide +kernel)
  simp only [Bool.and_eq_true, Bool.not_eq_true', decide_eq_true_eq, List.all_eq_true] at hP
  obtain ⟨⟨⟨hshut, hfreed⟩, hpassed⟩, hevents⟩ := hP
  have hfresh : FreshArgs h := ⟨by rw [hpassed]; decide, by rw [hpassed]; decide⟩
  refine ⟨h, s, hrun, hfreed,
    (owns_args_iff_reused_returned _ _ (by decide) h s hrun hshut hfresh).2 fun e he x hx => ?_⟩
  have hevent := hevents e he
  rw [hx] at hevent
  simp only [Option.all_some, Bool.and_eq_true, decide_eq_true_eq, List.all_eq_true,
    Bool.not_eq_true'] at hevent
  obtain ⟨⟨⟨rfl, hacc⟩, htak⟩, hidle⟩ := hevent
  refine ⟨fun _ => ⟨⟨by rw [hacc, htak]; decide, fun w hw htask => ?_⟩, by decide⟩, fun hlt => ?_⟩
  · rw [hidle w hw] at htask
    cases htask
  · rw [hacc] at hlt
    exact absurd hlt (by decide)

/-- The second call frees the argument of the first task while it is being executed. -/
theorem frees_args_of_running_task :
    ¬ ∀ (c : Config) (m : Memory) (h : History) (s : State), 0 < c.threadMinNum →
      c.threadMinNum ≤ c.threadMaxNum → 1 ≤ c.queueMaxSize → (threadpool c m).Run h s →
      s.pool.shutdown = false → FreshArgs h → OwnsArgs h := by
  intro hclaim
  obtain ⟨h, s, hrun, hP⟩ := exists_run_of_schedule ⟨1, 1, 1⟩ .cleared
    (addSchedule 0 1 1 ++ taskSchedule 0 ++ .call 1 2 :: List.replicate 5 (.add 1 0))
    (fun h s => !s.pool.shutdown && decide (passedArgs h = [1, 2]) &&
      h.any fun e => decide (freedArgs e = some 1) &&
        e.pre.workers.any fun w => w.hasTask && decide (w.task.args = 1)) (by decide +kernel)
  simp only [Bool.and_eq_true, Bool.not_eq_true', decide_eq_true_eq, List.any_eq_true] at hP
  obtain ⟨⟨hshut, hpassed⟩, e, he, hfree, w, hw, htask, hargs⟩ := hP
  have hfresh : FreshArgs h := ⟨by rw [hpassed]; decide, by rw [hpassed]; decide⟩
  exact (hclaim _ _ h s (by decide) (by decide) (by decide) hrun hshut hfresh e he 1 hfree).2.1
    w hw htask hargs

end LinuxExercise.ThreadPool
