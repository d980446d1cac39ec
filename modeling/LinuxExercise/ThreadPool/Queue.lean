import LinuxExercise.Framework.Ring
import LinuxExercise.ThreadPool.Exclusion

/-!
# The task ring is a bounded FIFO queue

Position `k` of the task ring is the `k`-th accepted task.  `Coupled` relates the four queue
fields to the history: `queue_front` and `queue_rear` are the numbers of taken and of accepted
tasks modulo the capacity, `queue_size` is their difference, and the slots hold the last lap
of the accepted tasks, the first lap being what `malloc` left there.  In the middle of an
operation one of the indices is ahead and one slot is being rewritten, which the parameters of
`Coupled` account for.

`queueMonitor` turns this into assertions for every statement inside the critical sections,
and the monitor rule makes it an invariant (`queueInv_of_run`) of all runs in which no call
has executed line 123.
-/

namespace LinuxExercise.ThreadPool

open Monitor

/-! ## The coupling of the ring with its history -/

/-- The part of the state that the queue is about. -/
structure QueueView where
  taskQueue : List Task
  queueFront : ℕ
  queueRear : ℕ
  queueSize : ℤ
  queueMaxSize : ℕ
  shutdown : Bool
  accepted : List Task
  taken : List Task

/-- The queue of a state. -/
def State.queue (s : State) : QueueView where
  taskQueue := s.pool.taskQueue
  queueFront := s.pool.queueFront
  queueRear := s.pool.queueRear
  queueSize := s.pool.queueSize
  queueMaxSize := s.pool.queueMaxSize
  shutdown := s.pool.shutdown
  accepted := s.accepted
  taken := s.taken

/-- The queue fields agree with the history.  `rewritten` is `1` while the slot of the next
position is being overwritten, `ahead` is `1` when `queue_rear` has moved and `queue_size` has
not, `behind` is `1` when `queue_front` has moved and `queue_size` has not. -/
structure Coupled (ring : List Task) (rewritten ahead behind : ℕ) (q : QueueView) : Prop where
  pos : 0 < q.queueMaxSize
  ring_length : ring.length = q.queueMaxSize
  length : q.taskQueue.length = q.queueMaxSize
  rear : q.queueRear = (q.accepted.length + ahead) % q.queueMaxSize
  front : q.queueFront = (q.taken.length + behind) % q.queueMaxSize
  size : q.queueSize = (q.accepted.length : ℤ) - q.taken.length
  taken_le : q.taken.length + behind ≤ q.accepted.length
  accepted_le : q.accepted.length + ahead ≤ q.taken.length + q.queueMaxSize
  taken_prefix : q.taken <+: q.accepted
  laps : Ring.Holds q.taskQueue (ring ++ q.accepted) (q.accepted.length + rewritten)

/-- The ring has a free slot. -/
def QueueView.HasRoom (q : QueueView) : Prop :=
  q.accepted.length < q.taken.length + q.queueMaxSize

/-- The slot that the next accepted task goes to. -/
def QueueView.rearSlot (q : QueueView) : Option Task :=
  q.taskQueue[q.accepted.length % q.queueMaxSize]?

/-- The task at the head of the queue. -/
def QueueView.head (q : QueueView) : Option Task := q.accepted[q.taken.length]?

/-- The queue while a call is inside the critical section. -/
def Adder.queueAssertion (ring : List Task) (a : Adder) (q : QueueView) : Prop :=
  match a.pc with
  | .ifShutdown => Coupled ring 0 0 0 q ∧ (q.shutdown = false → q.HasRoom)
  | .ifArgs | .freeArgs | .nullArgs => Coupled ring 0 0 0 q ∧ q.HasRoom
  | .storeArgs => Coupled ring 1 0 0 q ∧ q.HasRoom
  | .storeFunction =>
    Coupled ring 1 0 0 q ∧ q.HasRoom ∧ ∃ t, q.rearSlot = some t ∧ t.args = a.args
  | .moveRear => Coupled ring 1 0 0 q ∧ q.HasRoom ∧ q.rearSlot = some a.task
  | .incSize => Coupled ring 1 1 0 q ∧ q.rearSlot = some a.task
  | _ => Coupled ring 0 0 0 q

/-- The queue while a worker is inside the critical section. -/
def Worker.queueAssertion (ring : List Task) (w : Worker) (q : QueueView) : Prop :=
  match w.pc with
  | .ifShutdown => Coupled ring 0 0 0 q ∧ (q.shutdown = false → q.head.isSome)
  | .takeFunction => Coupled ring 0 0 0 q ∧ q.head.isSome
  | .takeArgs =>
    Coupled ring 0 0 0 q ∧ ∃ t, q.head = some t ∧ w.task.function = t.function
  | .moveFront => Coupled ring 0 0 0 q ∧ q.head = some w.task
  | .decSize => Coupled ring 0 0 1 q ∧ q.head = some w.task
  | _ => Coupled ring 0 0 0 q

/-- The task ring as the resource of `pool->lock`. -/
def queueMonitor (ring : List Task) : Monitor Local QueueView where
  holds := Local.holds
  free := Coupled ring 0 0 0
  inside
    | .add a => a.queueAssertion ring
    | .work w => w.queueAssertion ring
    | .manage _ => Coupled ring 0 0 0

/-! ## The queue operations on the coupling -/

section Coupled

variable {ring : List Task} {rewritten ahead behind : ℕ} {q : QueueView}

theorem Coupled.lap_length (h : Coupled ring rewritten ahead behind q) :
    (ring ++ q.accepted).length = q.accepted.length + q.taskQueue.length := by
  rw [List.length_append, h.ring_length, h.length, Nat.add_comm]

theorem Coupled.rear_eq (h : Coupled ring rewritten 0 behind q) :
    q.queueRear = q.accepted.length % q.taskQueue.length := by
  simpa [h.length] using h.rear

/-- Writing to the slot at `queue_rear` keeps the coupling of the rest. -/
theorem Coupled.modify (h : Coupled ring rewritten 0 behind q) (hle : rewritten ≤ 1)
    (f : Task → Task) :
    Coupled ring 1 0 behind { q with taskQueue := q.taskQueue.modify q.queueRear f } where
  pos := h.pos
  ring_length := h.ring_length
  length := by simpa using h.length
  rear := h.rear
  front := h.front
  size := h.size
  taken_le := h.taken_le
  accepted_le := h.accepted_le
  taken_prefix := h.taken_prefix
  laps := by
    rw [h.rear_eq]
    exact h.laps.modify (by omega) h.lap_length f

theorem Coupled.mono (h : Coupled ring 0 ahead behind q) : Coupled ring 1 ahead behind q :=
  { h with laps := h.laps.mono (Nat.le_succ _) }

/-- The slot at `queue_rear` after a write to it. -/
theorem Coupled.rearSlot_modify (h : Coupled ring rewritten 0 behind q) (f : Task → Task) :
    QueueView.rearSlot { q with taskQueue := q.taskQueue.modify q.queueRear f } =
      q.rearSlot.map f := by
  simp [QueueView.rearSlot, h.rear]

theorem Coupled.rearSlot_isSome (h : Coupled ring rewritten ahead behind q) :
    ∃ t, q.rearSlot = some t := by
  have hlt : q.accepted.length % q.queueMaxSize < q.taskQueue.length := by
    rw [h.length]
    exact Nat.mod_lt _ h.pos
  exact ⟨_, List.getElem?_eq_getElem hlt⟩

/-- Line 135. -/
theorem Coupled.moveRear (h : Coupled ring rewritten 0 behind q) (hroom : q.HasRoom) :
    Coupled ring rewritten 1 behind
      { q with queueRear := (q.queueRear + 1) % q.queueMaxSize } :=
  { h with
    rear := by
      show (q.queueRear + 1) % q.queueMaxSize = _
      rw [h.rear]
      simp [Nat.add_mod]
    accepted_le := hroom }

/-- Line 136: the task in the slot is now an accepted task. -/
theorem Coupled.incSize (h : Coupled ring 1 1 behind q) {t : Task}
    (hslot : q.rearSlot = some t) :
    Coupled ring 0 0 behind
      { q with queueSize := q.queueSize + 1, accepted := q.accepted ++ [t] } where
  pos := h.pos
  ring_length := h.ring_length
  length := h.length
  rear := by simpa using h.rear
  front := h.front
  size := by simp only [h.size, List.length_append, List.length_singleton]; push_cast; ring
  taken_le := by have := h.taken_le; simp only [List.length_append]; omega
  accepted_le := by simpa using h.accepted_le
  taken_prefix := h.taken_prefix.trans (List.prefix_append _ _)
  laps := by
    have hpush := h.laps.push h.lap_length (x := t) (by rw [h.length]; exact hslot)
    simpa [List.append_assoc] using hpush

/-- The slot at `queue_front` holds the head of the queue. -/
theorem Coupled.front_slot (h : Coupled ring 0 ahead 0 q) {t : Task} (ht : q.head = some t) :
    q.taskQueue[q.queueFront]? = some t := by
  obtain ⟨hlt, -⟩ := List.getElem?_eq_some_iff.mp ht
  -- Position `taken` of the accepted tasks is position `ring.length + taken` of the laps.
  have hacc := h.accepted_le
  have hring := h.ring_length
  have hlap := h.laps (ring.length + q.taken.length) (by omega)
    (by rw [List.length_append]; omega)
  rw [List.getElem?_append_right (by omega), Nat.add_sub_cancel_left] at hlap
  rw [h.front, Nat.add_zero, ← h.length]
  rw [hring, ← h.length, Nat.add_mod_left] at hlap
  exact hlap.trans ht

/-- Line 185. -/
theorem Coupled.moveFront (h : Coupled ring rewritten ahead 0 q) (hhead : q.head.isSome) :
    Coupled ring rewritten ahead 1
      { q with queueFront := (q.queueFront + 1) % q.queueMaxSize } :=
  { h with
    front := by
      show (q.queueFront + 1) % q.queueMaxSize = _
      rw [h.front]
      simp [Nat.add_mod]
    taken_le := by
      obtain ⟨t, ht⟩ := Option.isSome_iff_exists.mp hhead
      exact (List.getElem?_eq_some_iff.mp ht).1 }

/-- Line 186: the head of the queue is now a taken task. -/
theorem Coupled.decSize (h : Coupled ring rewritten ahead 1 q) {t : Task}
    (ht : q.head = some t) :
    Coupled ring rewritten ahead 0
      { q with queueSize := q.queueSize - 1, taken := q.taken ++ [t] } :=
  { h with
    front := by simpa using h.front
    size := by simp only [h.size, List.length_append, List.length_singleton]; push_cast; ring
    taken_le := by simpa using h.taken_le
    accepted_le := by
      have := h.accepted_le
      simp only [List.length_append, List.length_singleton]
      omega
    taken_prefix := by
      obtain ⟨rest, hrest⟩ := h.taken_prefix
      show q.taken ++ [t] <+: q.accepted
      have hget : q.accepted[q.taken.length]? = some t := ht
      rw [← hrest, List.getElem?_append_right (Nat.le_refl _), Nat.sub_self] at hget
      cases rest with
      | nil => cases hget
      | cons u rest =>
        obtain rfl := Option.some.inj hget
        exact ⟨rest, by rw [← hrest]; simp⟩ }

/-- `queue_size` is zero exactly when nothing is queued. -/
theorem Coupled.head_isSome_iff (h : Coupled ring rewritten ahead behind q) :
    q.head.isSome ↔ q.queueSize ≠ 0 := by
  have := h.taken_le
  rw [h.size, QueueView.head, Option.isSome_iff_exists]
  constructor
  · rintro ⟨t, ht⟩
    have := (List.getElem?_eq_some_iff.mp ht).1
    omega
  · intro hne
    exact ⟨_, List.getElem?_eq_getElem (by omega)⟩

/-- `queue_size` is the capacity exactly when there is no room. -/
theorem Coupled.hasRoom_iff (h : Coupled ring rewritten 0 behind q) :
    q.HasRoom ↔ q.queueSize ≠ q.queueMaxSize := by
  have := h.accepted_le
  have := h.taken_le
  rw [h.size, QueueView.HasRoom]
  omega

end Coupled

/-! ## Every statement keeps the assertions -/

/-- The queue after a statement, from the pool and the effect. -/
def QueueView.after (q : QueueView) (p : Pool) (e : Effect) : QueueView where
  taskQueue := p.taskQueue
  queueFront := p.queueFront
  queueRear := p.queueRear
  queueSize := p.queueSize
  queueMaxSize := p.queueMaxSize
  shutdown := p.shutdown
  accepted := q.accepted ++ e.accepts
  taken := q.taken ++ e.takes

/-- A statement that neither accepts nor takes a task leaves the history as it is. -/
theorem QueueView.after_of_nil (q : QueueView) (p : Pool) {e : Effect} (hacc : e.accepts = [])
    (htak : e.takes = []) :
    q.after p e = ⟨p.taskQueue, p.queueFront, p.queueRear, p.queueSize, p.queueMaxSize,
      p.shutdown, q.accepted, q.taken⟩ := by
  simp [QueueView.after, hacc, htak]

theorem QueueView.after_accept (q : QueueView) (p : Pool) (t : Task) :
    q.after p (.accept t) = ⟨p.taskQueue, p.queueFront, p.queueRear, p.queueSize, p.queueMaxSize,
      p.shutdown, q.accepted ++ [t], q.taken⟩ := by
  simp [QueueView.after, Effect.accepts, Effect.takes]

theorem QueueView.after_take (q : QueueView) (p : Pool) (t : Task) :
    q.after p (.take t) = ⟨p.taskQueue, p.queueFront, p.queueRear, p.queueSize, p.queueMaxSize,
      p.shutdown, q.accepted, q.taken ++ [t]⟩ := by
  simp [QueueView.after, Effect.accepts, Effect.takes]

theorem Applied.queue {s s₁ s' : State} {e : Effect} (h : Applied s₁ e s')
    (hacc : s₁.accepted = s.accepted) (htak : s₁.taken = s.taken) :
    s'.queue = s.queue.after s₁.pool e := by
  simp [State.queue, QueueView.after, h.pool, h.accepted, h.taken, hacc, htak]

theorem Pool.slot_eq {p : Pool} {i : ℕ} {t : Task} (h : p.taskQueue[i]? = some t) :
    p.slot i = t := by
  simp [Pool.slot, List.getD, h]

section Owes

variable {ring : List Task} {s : State}

theorem threadpoolAdd_queue {me : Thread} {p' : Pool} {a a' : Adder} {e : Effect}
    (h : threadpoolAdd me s.pool a = some (p', a', e)) (hrel : a'.released = false) :
    (queueMonitor ring).Owes (.add a) (.add a') s.queue (s.queue.after p' e) := by
  obtain ⟨hrel₀, hpc⟩ := threadpoolAdd_released h hrel
  obtain ⟨pc, f, x, released, unlocks⟩ := a
  obtain rfl : released = false := hrel₀
  cases pc <;> simp only [threadpoolAdd] at h
  case blocked | returned => cases h
  case unlockShutdown => exact absurd rfl hpc
  case incSize =>
    cases h
    rw [QueueView.after_accept]
    rintro ⟨hin, hslot⟩
    exact hin.incSize hslot
  all_goals try split at h
  all_goals cases h
  all_goals rw [QueueView.after_of_nil _ _ rfl rfl]
  case lock.isTrue | woken.isTrue => exact id
  case whileFull.isTrue | wait | signal | unlock => exact id
  case whileFull.isFalse hloop =>
    intro (hin : Coupled ring 0 0 0 s.queue)
    exact ⟨hin, fun hs => hin.hasRoom_iff.2 fun hsize => hloop ⟨hs, hsize⟩⟩
  case ifShutdown.isTrue => exact fun hin => hin.1
  case ifShutdown.isFalse hs =>
    rintro ⟨hin, hroom⟩
    exact ⟨hin, hroom (Bool.eq_false_iff.mpr hs)⟩
  case ifArgs.isTrue => exact fun hin => ⟨hin.1.mono, hin.2⟩
  case ifArgs.isFalse | freeArgs => exact id
  case nullArgs => exact fun hin => ⟨hin.1.modify (by omega) _, hin.2⟩
  case storeArgs =>
    rintro ⟨hin, hroom⟩
    obtain ⟨t, ht⟩ := hin.rearSlot_isSome
    refine ⟨hin.modify le_rfl _, hroom, { t with args := x }, ?_, rfl⟩
    exact (hin.rearSlot_modify _).trans (by rw [ht]; rfl)
  case storeFunction =>
    rintro ⟨hin, hroom, t, ht, hargs⟩
    refine ⟨hin.modify le_rfl _, hroom, ?_⟩
    apply (hin.rearSlot_modify _).trans
    rw [ht, Adder.task, ← hargs]
    rfl
  case moveRear =>
    rintro ⟨hin, hroom, hslot⟩
    exact ⟨hin.moveRear hroom, hslot⟩

theorem threadpoolThread_queue {me : Thread} {p' : Pool} {w w' : Worker} {e : Effect}
    (h : threadpoolThread me s.taken.length s.pool w = some (p', w', e)) :
    (queueMonitor ring).Owes (.work w) (.work w') s.queue (s.queue.after p' e) := by
  obtain ⟨pc, task, number⟩ := w
  cases pc <;> simp only [threadpoolThread] at h
  case blocked | exited => cases h
  case decSize =>
    cases h
    rw [QueueView.after_take]
    rintro ⟨hin, hhead⟩
    exact hin.decSize hhead
  all_goals try split at h
  all_goals cases h
  all_goals rw [QueueView.after_of_nil _ _ rfl rfl]
  case lockCounter.isTrue | incBusy | unlockCounter | call | running =>
    exact ⟨id, fun _ _ => id⟩
  case whileEmpty.isFalse hloop =>
    intro (hin : Coupled ring 0 0 0 s.queue)
    exact ⟨hin, fun hs => hin.head_isSome_iff.2 fun hsize => hloop ⟨hs, hsize⟩⟩
  case ifShutdown.isTrue => exact fun hin => hin.1
  case ifShutdown.isFalse hs =>
    rintro ⟨hin, hhead⟩
    exact ⟨hin, hhead (Bool.eq_false_iff.mpr hs)⟩
  case takeFunction =>
    rintro ⟨hin, hhead⟩
    obtain ⟨t, ht⟩ := Option.isSome_iff_exists.mp hhead
    have hslot : s.pool.slot s.pool.queueFront = t := Pool.slot_eq (hin.front_slot ht)
    refine ⟨hin, t, ht, ?_⟩
    show (s.pool.slot s.pool.queueFront).function = t.function
    rw [hslot]
  case takeArgs =>
    rintro ⟨hin, t, ht, hfun⟩
    refine ⟨hin, ht.trans ?_⟩
    have hslot : s.pool.slot s.pool.queueFront = t := Pool.slot_eq (hin.front_slot ht)
    rw [hslot, show task.function = t.function from hfun]
  case moveFront =>
    rintro ⟨hin, hhead⟩
    exact ⟨hin.moveFront (by rw [hhead]; rfl), hhead⟩
  all_goals exact id

theorem adjustThread_queue {alive : Bool} {tid : ℕ} {p' : Pool} {m m' : Adjust} {e : Effect}
    (h : adjustThread alive tid s.pool m = some (p', m', e)) :
    (queueMonitor ring).Owes (.manage m) (.manage m') s.queue (s.queue.after p' e) := by
  have hq : s.queue.after p' e = s.queue := by
    have hp := adjustThread_frame h
    rcases adjustThread_effect h with rfl | rfl | rfl
    all_goals rw [QueueView.after_of_nil _ _ rfl rfl, hp]; rfl
  rw [hq]
  unfold Owes
  split <;> first | exact id | exact ⟨id, fun _ _ => id⟩

end Owes

/-! ## The queue invariant -/

/-- The queue of a pool and the calls and workers that use it. -/
def QueueInv (c : Config) (m : Memory) (s : State) : Prop :=
  (queueMonitor (m.ring c)).Inv (s.view State.queue)

/-- What the other steps do to the queue: nothing, or `shutdown` is set. -/
theorem queueMonitor_stable {ring : List Task} {q : QueueView} {b : Bool}
    (hb : q.shutdown = true → b = true) :
    Stable (queueMonitor ring) q { q with shutdown := b } := by
  have hcoupled : ∀ {r a f}, Coupled ring r a f q → Coupled ring r a f { q with shutdown := b } :=
    fun h => { h with }
  have hfalse : b = false → q.shutdown = false := by
    intro hb'
    by_contra hne
    rw [hb (by simpa using hne)] at hb'
    cases hb'
  refine ⟨hcoupled, ?_⟩
  rintro (a | w | m) - hin
  · change a.queueAssertion ring q at hin
    show a.queueAssertion ring _
    unfold Adder.queueAssertion at hin ⊢
    split at hin
    · exact ⟨hcoupled hin.1, fun h => hin.2 (hfalse h)⟩
    · exact ⟨hcoupled hin.1, hin.2⟩
    · exact ⟨hcoupled hin.1, hin.2⟩
    · exact ⟨hcoupled hin.1, hin.2⟩
    · exact ⟨hcoupled hin.1, hin.2⟩
    · exact ⟨hcoupled hin.1, hin.2⟩
    · exact ⟨hcoupled hin.1, hin.2⟩
    · exact ⟨hcoupled hin.1, hin.2⟩
    · exact hcoupled hin
  · change w.queueAssertion ring q at hin
    show w.queueAssertion ring _
    unfold Worker.queueAssertion at hin ⊢
    split at hin
    · exact ⟨hcoupled hin.1, fun h => hin.2 (hfalse h)⟩
    · exact ⟨hcoupled hin.1, hin.2⟩
    · exact ⟨hcoupled hin.1, hin.2⟩
    · exact ⟨hcoupled hin.1, hin.2⟩
    · exact ⟨hcoupled hin.1, hin.2⟩
    · exact hcoupled hin
  · exact hcoupled hin

theorem queue_obligations {ring : List Task} {s s' : State} {l : Label}
    (hstep : Stepped s l s') : Obligations (queueMonitor ring) State.queue s l s' where
  add _ _ hadd hrel hap := by
    rw [hap.queue (s := s) rfl rfl]
    exact threadpoolAdd_queue hadd hrel
  work _ _ hwork hap := by
    rw [hap.queue (s := s) rfl rfl]
    exact threadpoolThread_queue hwork
  adjust _ hadj hap := by
    rw [hap.queue (s := s) rfl rfl]
    exact adjustThread_queue hadj
  passive hadd hwork hadj := by
    cases hstep with
    | add => exact absurd rfl (hadd _ _)
    | work => exact absurd rfl (hwork _)
    | adjust => exact absurd rfl (hadj _ _)
    | call | wakeAdd | wakeWork => exact Stable.of_eq rfl
    | @destroy d p e _ hdes happ =>
      obtain ⟨hp, hshut⟩ := threadpoolDestroy_frame hdes
      have hq : s'.queue = { s.queue with shutdown := p.shutdown } := by
        rw [(applied_of_apply happ).queue (s := s) rfl rfl, QueueView.after_of_nil]
        · simp only; rw [hp]; rfl
        all_goals rcases threadpoolDestroy_effect hdes with rfl | rfl | rfl <;> rfl
      rw [hq]
      exact queueMonitor_stable hshut

theorem created_queueInv {c : Config} {m : Memory} (hpos : 1 ≤ c.queueMaxSize) :
    QueueInv c m (created c m) := by
  have hring : (m.ring c).length = c.queueMaxSize := by simp [Memory.ring]
  refine created_monitorInv (fun _ => rfl) ?_
  exact
    { pos := hpos
      ring_length := hring
      length := hring
      rear := (Nat.zero_mod _).symm
      front := (Nat.zero_mod _).symm
      size := rfl
      taken_le := Nat.le_refl _
      accepted_le := Nat.zero_le _
      taken_prefix := List.prefix_rfl
      laps := by
        intro k _ hk
        simp only [State.queue, created, threadpoolCreate, List.append_nil] at hk ⊢
        rw [Nat.mod_eq_of_lt hk] }

/-- The queue invariant, for every run in which no call has executed line 123. -/
theorem queueInv_of_run {c : Config} {m : Memory} (hpos : 1 ≤ c.queueMaxSize) {h : History}
    {s : State} (hrun : (threadpool c m).Run h s) : NoEarlyUnlock s → QueueInv c m s := by
  refine hrun.invariant_on (C := NoEarlyUnlock)
    (fun s l s' hstep => (stepped_of_run hstep).noEarlyUnlock) ?_ ?_
  · rintro s rfl -
    exact created_queueInv hpos
  · intro s l s' _ hstep _ hrel hinv
    exact monitorInv_step (fun _ => rfl) (stepped_of_run hstep) hrel
      (queue_obligations (stepped_of_run hstep)) hinv

/-- **Mutual exclusion.**  Up to the moment `shutdown` is set, at most one thread is between
the lock and the unlock of `pool->lock`. -/
theorem mutual_exclusion {c : Config} {m : Memory} (hpos : 1 ≤ c.queueMaxSize) {h : History}
    {s : State} (hrun : (threadpool c m).Run h s) (hshut : s.pool.shutdown = false)
    {t u : Thread} {x y : Local} (hx : s.thread t = some x) (hxh : x.holds = true)
    (hy : s.thread u = some y) (hyh : y.holds = true) : t = u :=
  (queueInv_of_run hpos hrun (noEarlyUnlock_of_running hrun hshut)).unique hx hxh hy hyh

theorem QueueInv.add {c : Config} {m : Memory} {s : State} (hinv : QueueInv c m s) {i : ℕ}
    {a : Adder} (ha : s.adders[i]? = some a) (hh : a.holds = true) :
    a.queueAssertion (m.ring c) s.queue :=
  hinv.inside (.adder i) (.add a) (by simp [State.view, State.thread, ha]) hh

theorem QueueInv.work {c : Config} {m : Memory} {s : State} (hinv : QueueInv c m s) {i : ℕ}
    {w : Worker} (hw : s.workers[i]? = some w) (hh : w.holds = true) :
    w.queueAssertion (m.ring c) s.queue :=
  hinv.inside (.worker i) (.work w) (by simp [State.view, State.thread, hw]) hh

/-- Whoever holds the mutex, the queue fields are coupled with the history. -/
theorem QueueInv.coupled {c : Config} {m : Memory} {s : State} (hinv : QueueInv c m s) :
    ∃ r a b, Coupled (m.ring c) r a b s.queue := by
  cases hlock : s.pool.lock with
  | none => exact ⟨0, 0, 0, hinv.free hlock⟩
  | some t =>
    obtain ⟨x, hx, hh⟩ := (hinv.owner_iff t).1 hlock
    have hin := hinv.inside t x hx hh
    rcases x with a | w | m
    · change a.queueAssertion _ _ at hin
      unfold Adder.queueAssertion at hin
      split at hin <;> first | exact ⟨_, _, _, hin⟩ | exact ⟨_, _, _, hin.1⟩
    · change w.queueAssertion _ _ at hin
      unfold Worker.queueAssertion at hin
      split at hin <;> first | exact ⟨_, _, _, hin⟩ | exact ⟨_, _, _, hin.1⟩
    · exact ⟨_, _, _, hin⟩

/-! ## The refinement -/

/-- The `queue_size` slots read cyclically from `queue_front`. -/
def Pool.queued (p : Pool) : List Task :=
  (List.range p.queueSize.toNat).map fun j => p.slot ((p.queueFront + j) % p.queueMaxSize)

/-- The queue fields represent the list of the tasks accepted and not yet taken. -/
structure RepresentsFifo (s : State) : Prop where
  size_nonneg : 0 ≤ s.pool.queueSize
  size_le : s.pool.queueSize ≤ s.pool.queueMaxSize
  front_lt : s.pool.queueFront < s.pool.queueMaxSize
  rear_lt : s.pool.queueRear < s.pool.queueMaxSize
  rear_eq : (s.pool.queueRear : ℤ) =
    (s.pool.queueFront + s.pool.queueSize) % s.pool.queueMaxSize
  queued_eq : s.pool.queued = s.accepted.drop s.taken.length

theorem Coupled.representsFifo {ring : List Task} {s : State}
    (h : Coupled ring 0 0 0 s.queue) : RepresentsFifo s := by
  have hpos : 0 < s.pool.queueMaxSize := h.pos
  have hrear : s.pool.queueRear = s.accepted.length % s.pool.queueMaxSize := h.rear
  have hfront : s.pool.queueFront = s.taken.length % s.pool.queueMaxSize := h.front
  have hsize : s.pool.queueSize = (s.accepted.length : ℤ) - s.taken.length := h.size
  have htak : s.taken.length ≤ s.accepted.length := h.taken_le
  have hacc : s.accepted.length ≤ s.taken.length + s.pool.queueMaxSize := h.accepted_le
  have hlen : s.pool.taskQueue.length = s.pool.queueMaxSize := h.length
  have hring : ring.length = s.pool.queueMaxSize := h.ring_length
  refine ⟨by omega, by omega, ?_, ?_, ?_, ?_⟩
  · rw [hfront]; exact Nat.mod_lt _ hpos
  · rw [hrear]; exact Nat.mod_lt _ hpos
  · rw [hsize, hrear, hfront]
    push_cast
    rw [Int.emod_add_emod]
    ring_nf
  · -- The queued tasks are the end of the last lap.
    obtain ⟨k, hk⟩ := Nat.exists_eq_add_of_le htak
    have hlaps : Ring.Holds s.pool.taskQueue (ring ++ s.accepted) s.accepted.length := h.laps
    have hread := @Ring.Holds.read _ _ _ _ (ring.length + s.taken.length) k hlaps (by omega)
      (by rw [List.length_append]; omega)
    have hdrop : ((ring ++ s.accepted).drop (ring.length + s.taken.length)).take k =
        s.accepted.drop s.taken.length := by
      rw [List.drop_append, List.drop_eq_nil_of_le (Nat.le_add_right _ _), List.nil_append,
        Nat.add_sub_cancel_left]
      exact List.take_of_length_le (by rw [List.length_drop]; omega)
    rw [hdrop, hring] at hread
    have htoNat : s.pool.queueSize.toNat = k := by omega
    have hmap : s.pool.queued.map some = (s.accepted.drop s.taken.length).map some := by
      rw [← hread, Pool.queued, htoNat, List.map_map]
      refine List.map_congr_left fun j _ => ?_
      have hlt : (s.pool.queueFront + j) % s.pool.queueMaxSize < s.pool.taskQueue.length := by
        rw [hlen]; exact Nat.mod_lt _ hpos
      have hidx : (s.pool.queueMaxSize + s.taken.length + j) % s.pool.taskQueue.length =
          (s.pool.queueFront + j) % s.pool.queueMaxSize := by
        rw [hlen, hfront, Nat.mod_add_mod, Nat.add_assoc, Nat.add_mod_left]
      simp only [Function.comp_apply, hidx]
      rw [List.getElem?_eq_getElem hlt, Pool.slot_eq (List.getElem?_eq_getElem hlt)]
    exact List.map_injective_iff.mpr (Option.some_injective _) hmap

/-- A worker has copied a task out of the ring and its function has not returned. -/
def Worker.hasTask (w : Worker) : Bool :=
  match w.pc with
  | .broadcast | .unlock | .lockCounter | .incBusy | .unlockCounter | .call | .running => true
  | _ => false

/-- Each worker with a task has the task it took under the number `number`. -/
theorem taken_of_hasTask {c : Config} {m : Memory} {h : History} {s : State}
    (hrun : (threadpool c m).Run h s) {i : ℕ} {w : Worker} (hw : s.workers[i]? = some w)
    (htask : w.hasTask = true) : s.taken[w.number]? = some w.task := by
  revert i w
  refine hrun.invariant (I := fun s => ∀ {i : ℕ} {w : Worker}, s.workers[i]? = some w →
    w.hasTask = true → s.taken[w.number]? = some w.task) ?_ ?_
  · rintro s rfl i w hw htask
    simp only [created, List.getElem?_replicate] at hw
    split at hw
    · obtain rfl := Option.some.inj hw
      cases htask
    · cases hw
  · intro s l s' _ hstep hinv i v hv htask
    have hstepped := stepped_of_run hstep
    obtain ⟨ts, hts⟩ := hstepped.taken
    have hgrow : ∀ {k : ℕ} {t : Task}, s.taken[k]? = some t → s'.taken[k]? = some t := by
      intro k t hk
      rw [hts, List.getElem?_append_left (List.getElem?_eq_some_iff.mp hk).1]
      exact hk
    rcases hstepped.worker hv with ⟨w, hw, rfl | rfl⟩ | ⟨w, p, e, rfl, hw, hap, hwork⟩ |
      ⟨-, -, -, rfl⟩
    · exact hgrow (hinv hw htask)
    · have hpc : w.pc ≠ .blocked := by
        intro hblk
        simp [Worker.wake, hblk, Worker.hasTask] at htask
      rw [Worker.wake_eq_self hpc] at htask ⊢
      exact hgrow (hinv hw htask)
    · obtain ⟨pc, task, number⟩ := w
      cases pc <;> simp only [threadpoolThread] at hwork
      case decSize =>
        cases hwork
        rw [hap.taken]
        simp [State.setWorker, Effect.takes]
      all_goals try split at hwork
      all_goals cases hwork
      all_goals first
        | (have htaken := hinv hw rfl; exact hgrow htaken)
        | cases htask
    · cases htask

/-- The pool's run, seen through the history of its queue, is a run of the bounded queue. -/
theorem fifo_of_run {c : Config} {m : Memory} (hpos : 1 ≤ c.queueMaxSize) {h : History}
    {s : State} (hrun : (threadpool c m).Run h s) : NoEarlyUnlock s →
    ∃ hf, (fifo Task c.queueMaxSize).Run hf (s.accepted.drop s.taken.length) ∧
      puts hf = s.accepted ∧ gets hf = s.taken := by
  induction hrun with
  | start hs =>
    obtain rfl : _ = created c m := hs
    exact fun _ => ⟨[], .start rfl, rfl, rfl⟩
  | @step h s s' l hrun hstep ih =>
    intro hrel'
    have hstepped := stepped_of_run hstep
    have hrel := hstepped.noEarlyUnlock hrel'
    have hinv := queueInv_of_run hpos hrun hrel
    obtain ⟨hf, hfrun, hputs, hgets⟩ := ih hrel
    rcases hstepped.history with ⟨hacc, htak⟩ | ⟨i, a, ha, hpc, hacc, htak⟩ |
      ⟨i, w, hw, hpc, hacc, htak⟩
    · exact ⟨hf, by rwa [hacc, htak], by rw [hputs, hacc], by rw [hgets, htak]⟩
    · -- Line 136 puts the call's task.
      have hasrt : a.queueAssertion (m.ring c) s.queue :=
        hinv.add ha (by simp [Adder.holds, hpc, hrel a (List.mem_of_getElem? ha)])
      simp only [Adder.queueAssertion, hpc] at hasrt
      have hcap : s.queue.queueMaxSize = c.queueMaxSize :=
        congrArg Config.queueMaxSize (config_of_run hrun)
      have hroom := hasrt.1.accepted_le
      have htak_le := hasrt.1.taken_le
      refine ⟨hf ++ [⟨_, .put a.task, s'.accepted.drop s'.taken.length⟩], hfrun.step ?_, ?_, ?_⟩
      · show FifoStep c.queueMaxSize _ _ _
        rw [hacc, htak, List.drop_append_of_le_length (by exact htak_le)]
        refine .put ?_
        rw [List.length_drop, ← hcap]
        have : s.accepted.length + 1 ≤ s.taken.length + s.queue.queueMaxSize := hroom
        omega
      · simp only [puts, List.filterMap_append] at hputs ⊢
        simp [hputs, hacc]
      · simp only [gets, List.filterMap_append] at hgets ⊢
        simp [hgets, htak]
    · -- Line 186 takes the task at the head.
      have hasrt : w.queueAssertion (m.ring c) s.queue := hinv.work hw (by simp [Worker.holds, hpc])
      simp only [Worker.queueAssertion, hpc] at hasrt
      obtain ⟨hlt, hget⟩ := List.getElem?_eq_some_iff.mp hasrt.2
      refine ⟨hf ++ [⟨_, .get w.task, s'.accepted.drop s'.taken.length⟩], hfrun.step ?_, ?_, ?_⟩
      · show FifoStep c.queueMaxSize _ _ _
        rw [hacc, htak, List.length_append, List.length_singleton,
          List.drop_eq_getElem_cons (by exact hlt)]
        exact hget ▸ .get
      · simp only [puts, List.filterMap_append] at hputs ⊢
        simp [hputs, hacc]
      · simp only [gets, List.filterMap_append] at hgets ⊢
        simp [hgets, htak]

/-- **The task ring refines a bounded FIFO queue.**  Up to the moment `shutdown` is set, the
accepted and the taken tasks of every run are those of a run of the bounded queue; whenever
the mutex is free the ring represents what is queued; the taken tasks are a prefix of the
accepted ones; and what a worker executes is the task it took. -/
theorem task_queue_refines_fifo (c : Config) (m : Memory) (hpos : 1 ≤ c.queueMaxSize)
    (h : History) (s : State) (hrun : (threadpool c m).Run h s)
    (hshut : s.pool.shutdown = false) :
    (∃ hf, (fifo Task c.queueMaxSize).Run hf (s.accepted.drop s.taken.length) ∧
      puts hf = s.accepted ∧ gets hf = s.taken) ∧
    (s.pool.lock = none → RepresentsFifo s) ∧
    s.taken <+: s.accepted ∧
    (∀ w ∈ s.workers, w.hasTask = true → s.taken[w.number]? = some w.task) := by
  have hrel := noEarlyUnlock_of_running hrun hshut
  have hinv := queueInv_of_run hpos hrun hrel
  refine ⟨fifo_of_run hpos hrun hrel, fun hfree => ?_, ?_, fun w hw htask => ?_⟩
  · have hcoupled : Coupled (m.ring c) 0 0 0 s.queue := hinv.free hfree
    exact hcoupled.representsFifo
  · obtain ⟨r, a, b, hcoupled⟩ := hinv.coupled
    exact hcoupled.taken_prefix
  · obtain ⟨i, hi⟩ := List.getElem?_of_mem hw
    exact taken_of_hasTask hrun hi htask

/-- Two tasks are added and the first is being executed. -/
theorem task_queue_refines_fifo_two_tasks :
    ∃ h s, (threadpool ⟨1, 1, 2⟩ .cleared).Run h s ∧ s.accepted = [⟨1, 1⟩, ⟨1, 2⟩] ∧
      s.taken = [⟨1, 1⟩] ∧ RepresentsFifo s := by
  obtain ⟨h, s, hrun, hP⟩ := exists_run_of_schedule ⟨1, 1, 2⟩ .cleared
    (addSchedule 0 1 1 ++ addSchedule 1 1 2 ++ taskSchedule 0)
    (fun _ s => !s.pool.shutdown && decide (s.pool.lock = none) &&
      decide (s.accepted = [⟨1, 1⟩, ⟨1, 2⟩]) && decide (s.taken = [⟨1, 1⟩])) (by decide +kernel)
  simp only [Bool.and_eq_true, Bool.not_eq_true', decide_eq_true_eq] at hP
  obtain ⟨⟨⟨hshut, hlock⟩, hacc⟩, htak⟩ := hP
  exact ⟨h, s, hrun, hacc, htak,
    (task_queue_refines_fifo _ _ (by decide) h s hrun hshut).2.1 hlock⟩

end LinuxExercise.ThreadPool
