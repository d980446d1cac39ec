import LinuxExercise.ThreadPool.Discipline

/-!
# Mutual exclusion on `pool->lock`

Mutual exclusion is an invariant of the runs in which no call has executed the unlock of line
123 (`NoEarlyUnlock`), in particular of all runs up to the moment `shutdown` is set
(`noEarlyUnlock_of_running`).

`monitorInv_step` is the monitor rule for the pool: an invariant about a resource that the
mutex protects follows from one obligation for each statement.
-/

namespace LinuxExercise.ThreadPool

open Monitor

/-! ## Threads -/

/-- The locals of each thread. -/
def State.thread (s : State) : Thread → Option Local
  | .adder i => (s.adders[i]?).map .add
  | .worker i => (s.workers[i]?).map .work
  | .adjust => some (.manage s.adjust)

/-- No call has executed the unlock of line 123. -/
def NoEarlyUnlock (s : State) : Prop := ∀ a ∈ s.adders, a.released = false

/-! ## The other threads -/

theorem Adder.wake_eq_self {a : Adder} (h : a.pc ≠ .blocked) : a.wake = a := by
  simp [Adder.wake, h]

theorem Worker.wake_eq_self {w : Worker} (h : w.pc ≠ .blocked) : w.wake = w := by
  simp [Worker.wake, h]

/-- Waking a call never makes it one that holds the mutex. -/
theorem Adder.wake_holds_iff {a b : Adder} (hb : b.holds = true) : a.wake = b ↔ a = b := by
  by_cases h : a.pc = .blocked
  · have hne : a.wake.holds = false := by simp [Adder.wake, h, Adder.holds]
    have hne' : a.holds = false := by simp [h, Adder.holds]
    constructor
    · rintro rfl; rw [hne] at hb; cases hb
    · rintro rfl; rw [hne'] at hb; cases hb
  · rw [Adder.wake_eq_self h]

/-- Waking a worker never makes it one that holds the mutex. -/
theorem Worker.wake_holds_iff {w v : Worker} (hv : v.holds = true) : w.wake = v ↔ w = v := by
  by_cases h : w.pc = .blocked
  · have hne : w.wake.holds = false := by simp [Worker.wake, h, Worker.holds]
    have hne' : w.holds = false := by simp [h, Worker.holds]
    constructor
    · rintro rfl; rw [hne] at hv; cases hv
    · rintro rfl; rw [hne'] at hv; cases hv
  · rw [Worker.wake_eq_self h]

/-- An effect never changes which threads hold the mutex, nor their locals. -/
theorem Applied.thread_iff {s s' : State} {e : Effect} (h : Applied s e s') (u : Thread)
    {y : Local} (hy : y.holds = true) : s'.thread u = some y ↔ s.thread u = some y := by
  cases u with
  | adder i =>
    simp only [State.thread, h.adders]
    split
    · cases y with
      | add b =>
        simp only [List.getElem?_map, Option.map_eq_some_iff, Local.add.injEq,
          exists_eq_right]
        constructor
        · rintro ⟨a, ha, hab⟩
          obtain rfl := (Adder.wake_holds_iff hy).1 hab
          exact ha
        · exact fun ha => ⟨b, ha, (Adder.wake_holds_iff hy).2 rfl⟩
      | work | manage => simp
    · rfl
  | worker i =>
    simp only [State.thread]
    rcases h.workers.getElem? i with hsame | hwake | ⟨-, hi, hfresh⟩
    · rw [hsame]
    · cases y with
      | work v =>
        simp only [hwake, Option.map_map, Option.map_eq_some_iff, Function.comp_apply,
          Local.work.injEq, exists_eq_right]
        constructor
        · rintro ⟨w, hw, hwv⟩
          obtain rfl := (Worker.wake_holds_iff hy).1 hwv
          exact hw
        · exact fun hw => ⟨v, hw, (Worker.wake_holds_iff hy).2 rfl⟩
      | add | manage => simp [hwake]
    · -- A fresh worker is at line 157, where it does not hold the mutex.
      rw [hfresh, hi]
      simp only [Option.map_some, Option.some.injEq, List.getElem?_length, Option.map_none,
        reduceCtorEq, iff_false]
      rintro rfl
      cases hy
  | adjust => simp [State.thread, h.adjust]

/-- A statement of a call leaves the locals of every other thread alone. -/
theorem State.setAdder_thread {s : State} {i : ℕ} {p : Pool} {a : Adder} {u : Thread}
    (hu : u ≠ .adder i) : (s.setAdder i p a).thread u = s.thread u := by
  cases u with
  | adder j =>
    have hij : i ≠ j := fun h => hu (by rw [h])
    simp [State.thread, State.setAdder, hij]
  | worker j => rfl
  | adjust => rfl

/-- A statement of a worker leaves the locals of every other thread alone. -/
theorem State.setWorker_thread {s : State} {i : ℕ} {p : Pool} {w : Worker} {u : Thread}
    (hu : u ≠ .worker i) : (s.setWorker i p w).thread u = s.thread u := by
  cases u with
  | worker j =>
    have hij : i ≠ j := fun h => hu (by rw [h])
    simp [State.thread, State.setWorker, hij]
  | adder j => rfl
  | adjust => rfl

/-- A statement of a call changes the calls by its own locals only. -/
theorem Applied.adders_of_add {s s' : State} {i : ℕ} {a a' : Adder} {p : Pool} {e : Effect}
    (h : Applied (s.setAdder i p a') e s')
    (hadd : threadpoolAdd (.adder i) s.pool a = some (p, a', e)) :
    s'.adders = s.adders.set i a' := by
  rw [h.adders, if_neg (threadpoolAdd_effect hadd).1]
  rfl

/-- A statement of a worker changes the workers by its own locals only. -/
theorem Applied.workers_of_work {s s' : State} {i n : ℕ} {w w' : Worker} {p : Pool} {e : Effect}
    (h : Applied (s.setWorker i p w') e s')
    (hwork : threadpoolThread (.worker i) n s.pool w = some (p, w', e)) :
    s'.workers = s.workers.set i w' := by
  obtain ⟨hsignal, hbroadcast, hcreate, -⟩ := threadpoolThread_effect hwork
  exact h.workers.eq_of_quiet hsignal hbroadcast hcreate

/-- A call that begins does not hold the mutex. -/
theorem State.call_thread_iff {s : State} {f x : ℕ} (u : Thread) {y : Local}
    (hy : y.holds = true) :
    State.thread { s with adders := s.adders ++ [⟨.lock, f, x, false, 0⟩] } u = some y ↔
      s.thread u = some y := by
  cases u with
  | adder i =>
    simp only [State.thread]
    by_cases hi : i = s.adders.length
    · -- The new call is at line 116.
      subst hi
      simp only [List.getElem?_append_right (Nat.le_refl _), Nat.sub_self,
        List.getElem?_cons_zero, Option.map_some, Option.some.injEq, List.getElem?_length,
        Option.map_none, reduceCtorEq, iff_false]
      rintro rfl
      cases hy
    · rcases Nat.lt_or_gt_of_ne hi with hlt | hgt
      · simp [List.getElem?_append_left hlt]
      · rw [List.getElem?_eq_none (by simp; omega), List.getElem?_eq_none (by omega)]
  | worker => rfl
  | adjust => rfl

theorem State.wakeAdd_thread_iff {s : State} {i : ℕ} {a : Adder} (ha : s.adders[i]? = some a)
    (u : Thread) {y : Local} (hy : y.holds = true) :
    (s.setAdder i s.pool a.wake).thread u = some y ↔ s.thread u = some y := by
  by_cases hu : u = .adder i
  · subst hu
    obtain ⟨hlt, hget⟩ := List.getElem?_eq_some_iff.mp ha
    cases y with
    | add b => simp [State.thread, State.setAdder, hlt, hget, Adder.wake_holds_iff hy]
    | work | manage => simp [State.thread, State.setAdder, hlt]
  · rw [State.setAdder_thread hu]

theorem State.wakeWork_thread_iff {s : State} {i : ℕ} {w : Worker} (hw : s.workers[i]? = some w)
    (u : Thread) {y : Local} (hy : y.holds = true) :
    (s.setWorker i s.pool w.wake).thread u = some y ↔ s.thread u = some y := by
  by_cases hu : u = .worker i
  · subst hu
    obtain ⟨hlt, hget⟩ := List.getElem?_eq_some_iff.mp hw
    cases y with
    | work v => simp [State.thread, State.setWorker, hlt, hget, Worker.wake_holds_iff hy]
    | add | manage => simp [State.thread, State.setWorker, hlt]
  · rw [State.setWorker_thread hu]

/-! ## The monitor rule for the pool -/

/-- What a monitor on `pool->lock` sees. -/
def State.view {ρ : Type*} (res : State → ρ) (s : State) : View Thread Local ρ :=
  ⟨s.pool.lock, s.thread, res s⟩

/-- The assertions of a monitor are stable under a change of the resource. -/
def Stable {ρ : Type*} (M : Monitor Local ρ) (r r' : ρ) : Prop :=
  (M.free r → M.free r') ∧ ∀ y, M.holds y = true → M.inside y r → M.inside y r'

theorem Stable.of_eq {ρ : Type*} {M : Monitor Local ρ} {r r' : ρ} (h : r' = r) :
    Stable M r r' := by
  subst h
  exact ⟨id, fun _ _ => id⟩

/-- What a step of the pool owes to a monitor on `pool->lock`. -/
structure Obligations {ρ : Type*} (M : Monitor Local ρ) (res : State → ρ) (s : State) (l : Label)
    (s' : State) : Prop where
  add : ∀ {i choice a a' p e}, l = .add i choice → s.adders[i]? = some a →
    threadpoolAdd (.adder i) s.pool a = some (p, a', e) → a'.released = false →
    Applied (s.setAdder i p a') e s' → M.Owes (.add a) (.add a') (res s) (res s')
  work : ∀ {i w w' p e}, l = .work i → s.workers[i]? = some w →
    threadpoolThread (.worker i) s.taken.length s.pool w = some (p, w', e) →
    Applied (s.setWorker i p w') e s' → M.Owes (.work w) (.work w') (res s) (res s')
  adjust : ∀ {answer choice m p e}, l = .adjust answer choice →
    adjustThread (pthreadIsAlive s (s.pool.threads.getD s.adjust.i 0) answer)
      (tidOf s.workers.length) s.pool s.adjust = some (p, m, e) →
    Applied { s with pool := p, adjust := m } e s' →
    M.Owes (.manage s.adjust) (.manage m) (res s) (res s')
  passive : (∀ i choice, l ≠ .add i choice) → (∀ i, l ≠ .work i) →
    (∀ answer choice, l ≠ .adjust answer choice) → Stable M (res s) (res s')

/-- **The monitor rule for the pool**: what each statement owes is enough. -/
theorem monitorInv_step {ρ : Type*} {M : Monitor Local ρ} (hM : ∀ x, M.holds x = x.holds)
    {res : State → ρ} {s s' : State} {l : Label} (hstep : Stepped s l s')
    (hrel : NoEarlyUnlock s') (howes : Obligations M res s l s')
    (hinv : M.Inv (s.view res)) : M.Inv (s'.view res) := by
  cases hstep with
  | call f x =>
    have hst := howes.passive (by simp) (by simp) (by simp)
    exact hinv.passive rfl (fun u y hy => State.call_thread_iff u (hM y ▸ hy)) hst.1 hst.2
  | @add i choice a a' p e _ ha hadd happ =>
    have hap := applied_of_apply happ
    have hlt : i < s.adders.length := (List.getElem?_eq_some_iff.mp ha).1
    have hadders := hap.adders_of_add hadd
    have hrel' : a'.released = false :=
      hrel a' (by rw [hadders]; exact List.mem_set hlt a')
    refine hinv.move (t := .adder i) (x := .add a) (y := .add a') ?_ ?_ ?_ ?_
    · simp [State.view, State.thread, ha]
    · simp [State.view, State.thread, hadders, hlt]
    · intro u hu y hy
      rw [hM] at hy
      exact (hap.thread_iff u hy).trans (by rw [State.setAdder_thread hu]; rfl)
    · have hd := threadpoolAdd_discipline hadd hrel'
      refine Move.of_discipline ?_ (howes.add rfl ha hadd hrel' hap)
      simpa [hM, Local.holds, State.view, hap.pool, State.setAdder] using hd
  | @work i w w' p e _ hw hwork happ =>
    have hap := applied_of_apply happ
    have hlt : i < s.workers.length := (List.getElem?_eq_some_iff.mp hw).1
    have hworkers := hap.workers_of_work hwork
    refine hinv.move (t := .worker i) (x := .work w) (y := .work w') ?_ ?_ ?_ ?_
    · simp [State.view, State.thread, hw]
    · simp [State.view, State.thread, hworkers, hlt]
    · intro u hu y hy
      rw [hM] at hy
      exact (hap.thread_iff u hy).trans (by rw [State.setWorker_thread hu]; rfl)
    · have hd := threadpoolThread_discipline hwork
      refine Move.of_discipline ?_ (howes.work rfl hw hwork hap)
      simpa [hM, Local.holds, State.view, hap.pool, State.setWorker] using hd
  | @adjust answer choice m p e _ hadj happ =>
    have hap := applied_of_apply happ
    refine hinv.move (t := .adjust) (x := .manage s.adjust) (y := .manage m) rfl ?_ ?_ ?_
    · simp [State.view, State.thread, hap.adjust]
    · intro u hu y hy
      rw [hM] at hy
      apply (hap.thread_iff u hy).trans
      cases u with
      | adder | worker => rfl
      | adjust => exact absurd rfl hu
    · have hd := adjustThread_discipline hadj
      refine Move.of_discipline ?_ (howes.adjust rfl hadj hap)
      simpa [hM, Local.holds, State.view, hap.pool] using hd
  | @destroy d p e _ hdes happ =>
    have hap := applied_of_apply happ
    have hst := howes.passive (by simp) (by simp) (by simp)
    refine hinv.passive ?_ (fun u y hy => ?_) hst.1 hst.2
    · simp [State.view, hap.pool, threadpoolDestroy_lock hdes]
    · rw [hM] at hy
      apply (hap.thread_iff u hy).trans
      cases u <;> rfl
  | wakeAdd ha =>
    have hst := howes.passive (by simp) (by simp) (by simp)
    exact hinv.passive rfl (fun u y hy => State.wakeAdd_thread_iff ha u (hM y ▸ hy)) hst.1 hst.2
  | wakeWork hw =>
    have hst := howes.passive (by simp) (by simp) (by simp)
    exact hinv.passive rfl (fun u y hy => State.wakeWork_thread_iff hw u (hM y ▸ hy)) hst.1 hst.2

/-- When `threadpool_create` returns nobody holds the mutex. -/
theorem created_monitorInv {ρ : Type*} {M : Monitor Local ρ} (hM : ∀ x, M.holds x = x.holds)
    {res : State → ρ} {c : Config} {m : Memory} (hfree : M.free (res (created c m))) :
    M.Inv ((created c m).view res) := by
  refine .of_nobody rfl (fun t x hx => ?_) hfree
  rw [hM]
  cases t with
  | adder i => simp [State.view, State.thread, created] at hx
  | worker i =>
    simp only [State.view, State.thread, created, List.getElem?_replicate] at hx
    split at hx
    · obtain rfl := Option.some.inj hx
      rfl
    · cases hx
  | adjust =>
    obtain rfl := Option.some.inj hx
    rfl

/-! ## How a step changes the threads -/

/-- How a step changes the calls: one of them executes a statement, others may be woken, and
a new one may be added. -/
theorem Stepped.adder {s s' : State} {l : Label} (h : Stepped s l s') {i : ℕ} {b : Adder}
    (hb : s'.adders[i]? = some b) :
    (∃ a, s.adders[i]? = some a ∧ (b = a ∨ b = a.wake) ∧ ∀ choice, l ≠ .add i choice) ∨
    (∃ choice a p e, l = .add i choice ∧ s.adders[i]? = some a ∧
      threadpoolAdd (.adder i) s.pool a = some (p, b, e)) ∨
    (∃ f x, l = .call f x ∧ i = s.adders.length ∧ b = ⟨.lock, f, x, false, 0⟩) := by
  cases h with
  | call f x =>
    rcases Nat.lt_trichotomy i s.adders.length with hlt | rfl | hgt
    · rw [List.getElem?_append_left hlt] at hb
      exact .inl ⟨b, hb, .inl rfl, by simp⟩
    · refine .inr (.inr ⟨f, x, rfl, rfl, ?_⟩)
      simpa using hb.symm
    · rw [List.getElem?_eq_none (by simp; omega)] at hb
      cases hb
  | @add j choice a a' p e _ ha hadd happ =>
    have hadders := (applied_of_apply happ).adders
    rw [if_neg (threadpoolAdd_effect hadd).1] at hadders
    rw [hadders, State.setAdder, List.getElem?_set] at hb
    split at hb
    · next hij =>
      subst hij
      split at hb
      · obtain rfl := Option.some.inj hb
        exact .inr (.inl ⟨choice, a, p, e, rfl, ha, hadd⟩)
      · cases hb
    · next hij => exact .inl ⟨b, hb, .inl rfl, by simpa using hij⟩
  | work hw hwork happ =>
    have hadders := (applied_of_apply happ).adders
    rw [hadders] at hb
    split at hb
    · obtain ⟨a, ha, rfl⟩ : ∃ a, s.adders[i]? = some a ∧ a.wake = b := by
        simpa [State.setWorker] using hb
      exact .inl ⟨a, ha, .inr rfl, by simp⟩
    · exact .inl ⟨b, hb, .inl rfl, by simp⟩
  | adjust hadj happ =>
    have hadders := (applied_of_apply happ).adders
    rw [if_neg (by rcases adjustThread_effect hadj with rfl | rfl | rfl <;> simp)] at hadders
    exact .inl ⟨b, by rwa [hadders] at hb, .inl rfl, by simp⟩
  | destroy hdes happ =>
    have hadders := (applied_of_apply happ).adders
    rw [if_neg (by rcases threadpoolDestroy_effect hdes with rfl | rfl | rfl <;> simp)] at hadders
    exact .inl ⟨b, by rwa [hadders] at hb, .inl rfl, by simp⟩
  | @wakeAdd j a ha hblk =>
    rw [State.setAdder, List.getElem?_set] at hb
    split at hb
    · next hij =>
      subst hij
      split at hb
      · exact .inl ⟨a, ha, .inr (Option.some.inj hb).symm, by simp⟩
      · cases hb
    · exact .inl ⟨b, hb, .inl rfl, by simp⟩
  | wakeWork => exact .inl ⟨b, hb, .inl rfl, by simp⟩

/-- How a step changes the workers: one of them executes a statement, others may be woken, and
a fresh one may be created by the manager. -/
theorem Stepped.worker {s s' : State} {l : Label} (h : Stepped s l s') {i : ℕ} {v : Worker}
    (hv : s'.workers[i]? = some v) :
    (∃ w, s.workers[i]? = some w ∧ (v = w ∨ v = w.wake)) ∨
    (∃ w p e, l = .work i ∧ s.workers[i]? = some w ∧ Applied (s.setWorker i p v) e s' ∧
      threadpoolThread (.worker i) s.taken.length s.pool w = some (p, v, e)) ∨
    ((∃ answer choice, l = .adjust answer choice) ∧ s.adjust.pc = .create ∧
      i = s.workers.length ∧ v = .fresh) := by
  have effect : ∀ {s₁ e}, Applied s₁ e s' → s₁.workers = s.workers →
      (∃ w, s.workers[i]? = some w ∧ (v = w ∨ v = w.wake)) ∨
      (e = .create ∧ i = s.workers.length ∧ v = .fresh) := by
    intro s₁ e hap hws
    rcases hap.workers.getElem? i with hsame | hwake | ⟨he, hi, hfresh⟩
    · rw [hsame, hws] at hv
      exact .inl ⟨v, hv, .inl rfl⟩
    · rw [hwake, hws] at hv
      obtain ⟨w, hw, rfl⟩ := Option.map_eq_some_iff.mp hv
      exact .inl ⟨w, hw, .inr rfl⟩
    · rw [hfresh] at hv
      exact .inr ⟨he, hws ▸ hi, (Option.some.inj hv).symm⟩
  cases h with
  | call => exact .inl ⟨v, hv, .inl rfl⟩
  | add ha hadd happ =>
    rcases effect (applied_of_apply happ) rfl with hold | ⟨rfl, -⟩
    · exact .inl hold
    · exact absurd rfl (threadpoolAdd_effect hadd).2.2.1
  | @work j w w' p e _ hw hwork happ =>
    have hap := applied_of_apply happ
    rw [hap.workers_of_work hwork, List.getElem?_set] at hv
    split at hv
    · next hij =>
      subst hij
      split at hv
      · obtain rfl := Option.some.inj hv
        exact .inr (.inl ⟨w, p, e, rfl, hw, hap, hwork⟩)
      · cases hv
    · exact .inl ⟨v, hv, .inl rfl⟩
  | @adjust answer choice m p e _ hadj happ =>
    rcases effect (applied_of_apply happ) rfl with hold | ⟨rfl, hi, hfresh⟩
    · exact .inl hold
    · refine .inr (.inr ⟨⟨answer, choice, rfl⟩, (adjustThread_create_iff hadj).1 rfl, hi, hfresh⟩)
  | destroy hdes happ =>
    rcases effect (applied_of_apply happ) rfl with hold | ⟨rfl, -⟩
    · exact .inl hold
    · rcases threadpoolDestroy_effect hdes with h | h | h <;> cases h
  | wakeAdd => exact .inl ⟨v, hv, .inl rfl⟩
  | @wakeWork j w hw hblk =>
    rw [State.setWorker, List.getElem?_set] at hv
    split at hv
    · next hij =>
      subst hij
      split at hv
      · exact .inl ⟨w, hw, .inr (Option.some.inj hv).symm⟩
      · cases hv
    · exact .inl ⟨v, hv, .inl rfl⟩

/-- How a step changes the history of the queue: not at all, by line 136 of a call or by line
186 of a worker. -/
theorem Stepped.history {s s' : State} {l : Label} (h : Stepped s l s') :
    (s'.accepted = s.accepted ∧ s'.taken = s.taken) ∨
    (∃ (i : ℕ) (a : Adder), s.adders[i]? = some a ∧ a.pc = .incSize ∧
      s'.accepted = s.accepted ++ [a.task] ∧ s'.taken = s.taken) ∨
    (∃ (i : ℕ) (w : Worker), s.workers[i]? = some w ∧ w.pc = .decSize ∧
      s'.accepted = s.accepted ∧ s'.taken = s.taken ++ [w.task]) := by
  cases h with
  | call | wakeAdd | wakeWork => exact .inl ⟨rfl, rfl⟩
  | @add i choice a a' p e _ ha hadd happ =>
    have hap := applied_of_apply happ
    have htak : s'.taken = s.taken := by
      rw [hap.taken, (threadpoolAdd_effect hadd).2.2.2.2, List.append_nil]; rfl
    by_cases hacc : e.accepts = []
    · exact .inl ⟨by rw [hap.accepted, hacc, List.append_nil]; rfl, htak⟩
    · cases e <;> simp [Effect.accepts] at hacc
      obtain ⟨hpc, rfl⟩ := threadpoolAdd_accept hadd
      exact .inr (.inl ⟨i, a, ha, hpc, hap.accepted, htak⟩)
  | @work i w w' p e _ hw hwork happ =>
    have hap := applied_of_apply happ
    have hacc : s'.accepted = s.accepted := by
      rw [hap.accepted, (threadpoolThread_effect hwork).2.2.2.2.1, List.append_nil]; rfl
    by_cases htak : e.takes = []
    · exact .inl ⟨hacc, by rw [hap.taken, htak, List.append_nil]; rfl⟩
    · cases e <;> simp [Effect.takes] at htak
      obtain ⟨hpc, rfl⟩ := threadpoolThread_take hwork
      exact .inr (.inr ⟨i, w, hw, hpc, hacc, hap.taken⟩)
  | adjust hadj happ =>
    have hap := applied_of_apply happ
    rw [hap.accepted, hap.taken]
    rcases adjustThread_effect hadj with rfl | rfl | rfl <;>
      exact .inl ⟨List.append_nil _, List.append_nil _⟩
  | destroy hdes happ =>
    have hap := applied_of_apply happ
    rw [hap.accepted, hap.taken]
    rcases threadpoolDestroy_effect hdes with rfl | rfl | rfl <;>
      exact .inl ⟨List.append_nil _, List.append_nil _⟩

/-- The history of taken tasks only grows. -/
theorem Stepped.taken {s s' : State} {l : Label} (h : Stepped s l s') :
    ∃ ts, s'.taken = s.taken ++ ts := by
  rcases h.history with ⟨-, htak⟩ | ⟨i, a, -, -, -, htak⟩ | ⟨i, w, -, -, -, htak⟩
  · exact ⟨[], by rw [htak, List.append_nil]⟩
  · exact ⟨[], by rw [htak, List.append_nil]⟩
  · exact ⟨_, htak⟩

/-- Calls are never removed. -/
theorem Stepped.adders_length {s s' : State} {l : Label} (h : Stepped s l s') :
    s.adders.length ≤ s'.adders.length := by
  cases h with
  | call => simp
  | add _ _ happ | work _ _ happ | adjust _ happ | destroy _ happ =>
    rw [(applied_of_apply happ).adders]
    split <;> simp [State.setAdder, State.setWorker]
  | wakeAdd => simp [State.setAdder]
  | wakeWork => simp [State.setWorker]

/-! ## Runs without an early unlock -/

@[simp] theorem Adder.wake_released (a : Adder) : a.wake.released = a.released := by
  unfold Adder.wake
  split <;> rfl

/-- No call has got as far as the unlock of line 123. -/
def RunningInv (s : State) : Prop :=
  ∀ (i : ℕ) (a : Adder), s.adders[i]? = some a → a.released = false ∧ a.pc ≠ .unlockShutdown

/-- While the pool is running no call reaches line 123. -/
theorem runningInv_of_run {c : Config} {m : Memory} {h : History} {s : State}
    (hrun : (threadpool c m).Run h s) : s.pool.shutdown = false → RunningInv s := by
  refine hrun.invariant_on (C := fun s => s.pool.shutdown = false)
    (fun s l s' hstep => (stepped_of_run hstep).running) ?_ ?_
  · rintro s rfl - i a ha
    simp [created] at ha
  · intro s l s' _ hstep hs _ hinv i b hb
    rcases (stepped_of_run hstep).adder hb with ⟨a, ha, rfl | rfl, -⟩ |
      ⟨choice, a, p, e, rfl, ha, hadd⟩ | ⟨f, x, -, -, rfl⟩
    · exact hinv i b ha
    · obtain ⟨hrel, hpc⟩ := hinv i a ha
      refine ⟨by simpa using hrel, ?_⟩
      unfold Adder.wake
      split <;> simp_all
    · obtain ⟨hrel, hpc⟩ := hinv i a ha
      obtain ⟨pc, f, x, released, unlocks⟩ := a
      cases pc <;> simp only [threadpoolAdd] at hadd
      case unlockShutdown => exact absurd rfl hpc
      case ifShutdown =>
        rw [hs] at hadd
        cases hadd
        exact ⟨hrel, by simp⟩
      all_goals try split at hadd
      all_goals cases hadd
      all_goals exact ⟨hrel, by simp⟩
    · exact ⟨rfl, by simp⟩

theorem noEarlyUnlock_of_running {c : Config} {m : Memory} {h : History} {s : State}
    (hrun : (threadpool c m).Run h s) (hs : s.pool.shutdown = false) : NoEarlyUnlock s := by
  intro a ha
  obtain ⟨i, hi⟩ := List.getElem?_of_mem ha
  exact (runningInv_of_run hrun hs i a hi).1

/-- An unlock of line 123 is not undone. -/
theorem Stepped.noEarlyUnlock {s s' : State} {l : Label} (h : Stepped s l s')
    (hs : NoEarlyUnlock s') : NoEarlyUnlock s := by
  intro a ha
  obtain ⟨i, hi⟩ := List.getElem?_of_mem ha
  have hlt : i < s.adders.length := (List.getElem?_eq_some_iff.mp hi).1
  obtain ⟨b, hb⟩ : ∃ b, s'.adders[i]? = some b := by
    refine ⟨_, List.getElem?_eq_getElem ?_⟩
    exact hlt.trans_le h.adders_length
  have hrel := hs b (List.mem_of_getElem? hb)
  rcases h.adder hb with ⟨a', ha', rfl | rfl, -⟩ | ⟨choice, a', p, e, -, ha', hadd⟩ |
    ⟨f, x, -, hi', -⟩
  · obtain rfl := Option.some.inj (hi.symm.trans ha')
    exact hrel
  · obtain rfl := Option.some.inj (hi.symm.trans ha')
    simpa using hrel
  · obtain rfl := Option.some.inj (hi.symm.trans ha')
    exact (threadpoolAdd_released hadd hrel).1
  · omega

end LinuxExercise.ThreadPool
