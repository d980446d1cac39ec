import LinuxExercise.ThreadSync.CondStack

/-!
# Ownership, mutual exclusion and wake-ups of the stack program

A producer owns its node from `malloc` until it is in the list, a consumer from when it has
taken it out until `free`.  With the mutex this keeps every access of a thread to a node
inside what the thread owns, and the list in between whole.

No wake-up is lost although the signal is sent after the unlock: while a consumer is blocked,
each item in the list is matched by a consumer that is looking for one or by a producer whose
signal is still to come (`Wakes`).
-/

namespace LinuxExercise.ThreadSync.CondStack

/-! ## What a thread owns -/

/-- From the pop to `free`. -/
def ConsumerPc.owns : ConsumerPc → Bool
  | .print | .unlock | .free => true
  | _ => false

/-- From `malloc` to the push. -/
def ProducerPc.owns : ProducerPc → Bool
  | .setNum | .print | .lock | .link | .publish => true
  | _ => false

/-- The node of consumer `i` is that of an item it has consumed and not freed. -/
def ConsumerInv (m : Memory) (i : ℕ) (c : Consumer) : Prop :=
  c.pc.owns = true → m.owner c.mp = .thread (.consumer i) ∧
    ∃ x, c.item = some x ∧ x.address = c.mp ∧ (i, x) ∈ m.consumed ∧ x ∉ m.freedItems

def ProducerInv (m : Memory) (i : ℕ) (p : Producer) : Prop :=
  p.pc.owns = true → m.owner p.mp = .thread (.producer i)

/-- What a step of thread `t` leaves to the others. -/
structure Keeps (t : Tid) (m m' : Memory) : Prop where
  owner : ∀ u a, u ≠ t → m.owner a = .thread u → m'.owner a = .thread u
  consumed : ∀ y ∈ m.consumed, y ∈ m'.consumed
  freed : ∀ j x, .consumer j ≠ t → (j, x) ∈ m.consumed → x ∉ m.freedItems → x ∉ m'.freedItems

theorem Keeps.of_eq {t : Tid} {m m' : Memory} (howner : m'.owner = m.owner)
    (hconsumed : m'.consumed = m.consumed) (hfreed : m'.freed = m.freed) : Keeps t m m' where
  owner u a _ ha := by rw [howner, ha]
  consumed y hy := by rwa [hconsumed]
  freed j x _ _ hx := by rwa [Memory.freedItems, hfreed]

/-- A node that is not another thread's changes hands. -/
theorem Keeps.of_update {t : Tid} {m m' : Memory} {a : ℕ} {o : Owner}
    (howner : m'.owner = Function.update m.owner a o) (ha : ∀ u, u ≠ t → m.owner a ≠ .thread u)
    (hconsumed : ∀ y ∈ m.consumed, y ∈ m'.consumed)
    (hfreed : ∀ j x, .consumer j ≠ t → (j, x) ∈ m.consumed → x ∉ m.freedItems →
      x ∉ m'.freedItems) : Keeps t m m' := by
  refine ⟨fun u b hu hb => ?_, hconsumed, hfreed⟩
  have hba : b ≠ a := by
    rintro rfl
    exact ha u hu hb
  rw [howner, Function.update_of_ne hba, hb]

theorem Keeps.consumer {t : Tid} {m m' : Memory} (h : Keeps t m m') {j : ℕ}
    (hj : .consumer j ≠ t) {c : Consumer} (hc : ConsumerInv m j c) : ConsumerInv m' j c := by
  intro howns
  obtain ⟨hown, x, hitem, hx, hmem, hnew⟩ := hc howns
  exact ⟨h.owner _ _ hj hown, x, hitem, hx, h.consumed _ hmem, h.freed j x hj hmem hnew⟩

theorem Keeps.producer {t : Tid} {m m' : Memory} (h : Keeps t m m') {j : ℕ}
    (hj : .producer j ≠ t) {p : Producer} (hp : ProducerInv m j p) : ProducerInv m' j p :=
  fun howns => h.owner _ _ hj (hp howns)

/-! ## The mutex -/

/-- Between lock and unlock. -/
def ConsumerPc.locks : ConsumerPc → Bool
  | .test | .wait | .take | .advance | .print | .unlock => true
  | _ => false

def ProducerPc.locks : ProducerPc → Bool
  | .link | .publish | .unlock => true
  | _ => false

inductive Local
  | consumer (c : Consumer)
  | producer (p : Producer)

/-- What a thread that has the mutex knows about `head`. -/
def knows : Local → Memory → Prop
  | .consumer c, m =>
    (c.pc = .wait → m.head = 0) ∧ (c.pc = .take → m.head ≠ 0) ∧
      (c.pc = .advance → m.head ≠ 0 ∧ c.mp = m.head)
  | .producer p, m =>
    p.pc = .publish → ∃ node i, m.heap p.mp = some node ∧ node.next = m.head ∧
      m.owner p.mp = .thread (.producer i)

/-- `g_mutex`. -/
def monitor : Monitor Local Memory where
  holds
    | .consumer c => c.pc.locks
    | .producer p => p.pc.locks
  free _ := True
  inside := knows

def thread (s : CondStack) : Tid → Option Local
  | .consumer i => s.consumers[i]?.map .consumer
  | .producer i => s.producers[i]?.map .producer

def view (s : CondStack) : Monitor.View Tid Local Memory := ⟨s.memory.mutex, thread s, s.memory⟩

theorem thread_setConsumer {s : CondStack} {i : ℕ} {u : Tid} (hu : u ≠ .consumer i)
    (c' : Consumer) (m' : Memory) :
    thread { s with memory := m', consumers := s.consumers.set i c' } u = thread s u := by
  cases u with
  | consumer j =>
    have hj : i ≠ j := fun hj => hu (congrArg Tid.consumer hj.symm)
    exact congrArg (Option.map Local.consumer) (List.getElem?_set_ne hj)
  | producer j => rfl

theorem thread_setProducer {s : CondStack} {i : ℕ} {u : Tid} (hu : u ≠ .producer i)
    (p' : Producer) (m' : Memory) :
    thread { s with memory := m', producers := s.producers.set i p' } u = thread s u := by
  cases u with
  | consumer j => rfl
  | producer j =>
    have hj : i ≠ j := fun hj => hu (congrArg Tid.producer hj.symm)
    exact congrArg (Option.map Local.producer) (List.getElem?_set_ne hj)

theorem stepConsumer_discipline {i : ℕ} {c c' : Consumer} {m m' : Memory}
    (hstep : stepConsumer i c m = some (c', m')) :
    Monitor.Discipline (.consumer i) m.mutex c.pc.locks m'.mutex c'.pc.locks := by
  unfold stepConsumer at hstep
  cases hpc : c.pc <;> rw [hpc] at hstep
  case lock | woken =>
    simp only at hstep
    split at hstep
    · next hfree =>
      obtain ⟨rfl, rfl⟩ := Prod.mk.inj (Option.some.inj hstep)
      rw [hfree]
      exact .acquire
    · cases hstep
  case test =>
    obtain ⟨rfl, rfl⟩ := Prod.mk.inj (Option.some.inj hstep)
    simp only
    split <;> exact .keep
  case wait | unlock =>
    obtain ⟨rfl, rfl⟩ := Prod.mk.inj (Option.some.inj hstep)
    exact .release
  case blocked => cases hstep
  case take | sleep =>
    obtain ⟨rfl, rfl⟩ := Prod.mk.inj (Option.some.inj hstep)
    exact .keep
  case advance | print | free =>
    obtain ⟨node, -, heq⟩ := Option.map_eq_some_iff.mp hstep
    obtain ⟨rfl, rfl⟩ := Prod.mk.inj heq
    exact .keep

theorem stepProducer_discipline {i : ℕ} {choice : Choice} {p p' : Producer} {m m' : Memory}
    (hstep : stepProducer i choice p m = some (p', m')) :
    Monitor.Discipline (.producer i) m.mutex p.pc.locks m'.mutex p'.pc.locks := by
  unfold stepProducer at hstep
  cases hpc : p.pc <;> rw [hpc] at hstep
  case malloc =>
    simp only at hstep
    split at hstep
    · obtain ⟨rfl, rfl⟩ := Prod.mk.inj (Option.some.inj hstep)
      exact .keep
    · cases hstep
  case lock =>
    simp only at hstep
    split at hstep
    · next hfree =>
      obtain ⟨rfl, rfl⟩ := Prod.mk.inj (Option.some.inj hstep)
      rw [hfree]
      exact .acquire
    · cases hstep
  case setNum | print | link =>
    obtain ⟨node, -, heq⟩ := Option.map_eq_some_iff.mp hstep
    obtain ⟨rfl, rfl⟩ := Prod.mk.inj heq
    exact .keep
  case publish | sleep =>
    obtain ⟨rfl, rfl⟩ := Prod.mk.inj (Option.some.inj hstep)
    exact .keep
  case unlock =>
    obtain ⟨rfl, rfl⟩ := Prod.mk.inj (Option.some.inj hstep)
    exact .release
  case signal => cases hstep

/-- The obligations of a step: what the thread knows if it has the mutex afterwards, and that
it leaves alone what others know if it never had it. -/
theorem owes {x x' : Local} {m m' : Memory} (hknows : monitor.holds x' = true → knows x' m')
    (hout : monitor.holds x = false → monitor.holds x' = false → ∀ y, knows y m → knows y m') :
    monitor.Owes x x' m m' := by
  unfold Monitor.Owes
  cases hx : monitor.holds x <;> cases hx' : monitor.holds x'
  · exact ⟨id, fun y _ hy => hout hx hx' y hy⟩
  · exact fun _ => hknows hx'
  · exact fun _ => trivial
  · exact fun _ => hknows hx'

/-! ## A step of a consumer -/

/-- What a consumer that has the mutex knows after its step. -/
theorem stepConsumer_knows {i : ℕ} {c c' : Consumer} {m m' : Memory}
    (hstep : stepConsumer i c m = some (c', m'))
    (hknows : c.pc.locks = true → knows (.consumer c) m) : knows (.consumer c') m' := by
  unfold stepConsumer at hstep
  cases hpc : c.pc <;> rw [hpc] at hstep
  case lock | woken =>
    simp only at hstep
    split at hstep
    · obtain ⟨rfl, rfl⟩ := Prod.mk.inj (Option.some.inj hstep)
      exact ⟨nofun, nofun, nofun⟩
    · cases hstep
  case test =>
    obtain ⟨rfl, rfl⟩ := Prod.mk.inj (Option.some.inj hstep)
    by_cases hhead : m.head = 0
    · simp [knows, hhead]
    · simp [knows, hhead]
  case blocked => cases hstep
  case take =>
    obtain ⟨rfl, rfl⟩ := Prod.mk.inj (Option.some.inj hstep)
    have hhead := (hknows (by rw [hpc]; rfl)).2.1 hpc
    exact ⟨nofun, nofun, fun _ => ⟨hhead, rfl⟩⟩
  case wait | unlock | sleep =>
    obtain ⟨rfl, rfl⟩ := Prod.mk.inj (Option.some.inj hstep)
    exact ⟨nofun, nofun, nofun⟩
  case advance | print | free =>
    obtain ⟨node, -, heq⟩ := Option.map_eq_some_iff.mp hstep
    obtain ⟨rfl, rfl⟩ := Prod.mk.inj heq
    exact ⟨nofun, nofun, nofun⟩

/-- A step of a consumer outside the mutex does not matter to a thread that has it. -/
theorem stepConsumer_outside {i : ℕ} {c c' : Consumer} {m m' : Memory}
    (hinv : ConsumerInv m i c) (hstep : stepConsumer i c m = some (c', m'))
    (hout : c.pc.locks = false) (hout' : c'.pc.locks = false) {y : Local} (hy : knows y m) :
    knows y m' := by
  unfold stepConsumer at hstep
  cases hpc : c.pc <;> rw [hpc] at hstep hout
  case lock | woken =>
    simp only at hstep
    split at hstep
    · obtain ⟨rfl, rfl⟩ := Prod.mk.inj (Option.some.inj hstep)
      cases hout'
    · cases hstep
  case blocked => cases hstep
  case sleep =>
    obtain ⟨rfl, rfl⟩ := Prod.mk.inj (Option.some.inj hstep)
    exact hy
  case free =>
    obtain ⟨node, -, heq⟩ := Option.map_eq_some_iff.mp hstep
    obtain ⟨rfl, rfl⟩ := Prod.mk.inj heq
    cases y with
    | consumer d => exact hy
    | producer p =>
      intro hp
      obtain ⟨node', j, hnode', hnext, hown⟩ := hy hp
      have hne : p.mp ≠ c.mp := by
        intro heq
        have hmine := (hinv (by rw [hpc]; rfl)).1
        rw [← heq, hown] at hmine
        cases hmine
      refine ⟨node', j, ?_, hnext, ?_⟩
      · exact (Function.update_of_ne hne ..).trans hnode'
      · exact (Function.update_of_ne hne ..).trans hown
  all_goals cases hout

/-- A consumer keeps the list whole and the nodes of the others. -/
theorem stepConsumer_inv {i : ℕ} {c c' : Consumer} {m m' : Memory} (hm : MemInv m)
    (hinv : ConsumerInv m i c) (hknows : c.pc.locks = true → knows (.consumer c) m)
    (hstep : stepConsumer i c m = some (c', m')) :
    MemInv m' ∧ ConsumerInv m' i c' ∧ Keeps (.consumer i) m m' := by
  unfold stepConsumer at hstep
  cases hpc : c.pc <;> rw [hpc] at hstep
  case lock | woken =>
    simp only at hstep
    split at hstep
    · obtain ⟨rfl, rfl⟩ := Prod.mk.inj (Option.some.inj hstep)
      exact ⟨hm.setMutex _, nofun, .of_eq rfl rfl rfl⟩
    · cases hstep
  case test =>
    obtain ⟨rfl, rfl⟩ := Prod.mk.inj (Option.some.inj hstep)
    refine ⟨hm, fun howns => ?_, .of_eq rfl rfl rfl⟩
    simp only at howns
    split at howns <;> cases howns
  case wait =>
    obtain ⟨rfl, rfl⟩ := Prod.mk.inj (Option.some.inj hstep)
    exact ⟨hm.setMutex _, nofun, .of_eq rfl rfl rfl⟩
  case blocked => cases hstep
  case take | sleep =>
    obtain ⟨rfl, rfl⟩ := Prod.mk.inj (Option.some.inj hstep)
    exact ⟨hm, nofun, .of_eq rfl rfl rfl⟩
  case advance =>
    obtain ⟨hhead, hmp⟩ := (hknows (by rw [hpc]; rfl)).2.2 hpc
    obtain ⟨node, x, rest, hnode, hstack, hx, hnew, hpop⟩ := hm.pop hhead i
    rw [hnode, Option.map_some, hstack] at hstep
    obtain ⟨rfl, rfl⟩ := Prod.mk.inj (Option.some.inj hstep)
    refine ⟨hpop, fun _ => ⟨?_, x, rfl, hx.trans hmp.symm, ?_, fun hfreed => ?_⟩, ?_⟩
    · simp only [hmp, Function.update_self]
    · exact List.mem_append_right _ (List.mem_singleton_self _)
    · obtain ⟨y, hy, rfl⟩ := List.mem_map.mp hfreed
      exact hnew (List.mem_map_of_mem (hm.freed y hy))
    · have hlist : m.owner m.head = .list := by
        rw [hm.listed, hstack, ← hx]
        exact List.mem_cons_self
      refine .of_update rfl (fun u _ hu => ?_) (fun y hy => List.mem_append_left _ hy)
        fun j x _ _ hx => hx
      rw [hlist] at hu
      cases hu
  case print =>
    obtain ⟨node, -, heq⟩ := Option.map_eq_some_iff.mp hstep
    obtain ⟨rfl, rfl⟩ := Prod.mk.inj heq
    exact ⟨hm, fun _ => hinv (by rw [hpc]; rfl), .of_eq rfl rfl rfl⟩
  case unlock =>
    obtain ⟨rfl, rfl⟩ := Prod.mk.inj (Option.some.inj hstep)
    exact ⟨hm.setMutex _, fun _ => hinv (by rw [hpc]; rfl), .of_eq rfl rfl rfl⟩
  case free =>
    obtain ⟨hown, x, hitem, hx, hmem, hnew⟩ := hinv (by rw [hpc]; rfl)
    obtain ⟨node, -, heq⟩ := Option.map_eq_some_iff.mp hstep
    rw [hitem] at heq
    obtain ⟨rfl, rfl⟩ := Prod.mk.inj heq
    refine ⟨hm.free hown hmem hnew, nofun, ?_⟩
    refine .of_update rfl (fun u hu hu' => ?_) (fun y hy => hy) fun j y hj hy hnew' hfreed => ?_
    · rw [hown] at hu'
      exact hu (Owner.thread.inj hu').symm
    · -- Another consumer's item is another item.
      have hfreed' : y ∈ m.freedItems ∨ y = x := by
        simpa [Memory.freedItems] using hfreed
      rcases hfreed' with hold | rfl
      · exact hnew' hold
      · exact hj (congrArg Tid.consumer (hm.consumer_unique hy hmem))

/-! ## A step of a producer -/

theorem stepProducer_knows {i : ℕ} {choice : Choice} {p p' : Producer} {m m' : Memory}
    (hinv : ProducerInv m i p) (hstep : stepProducer i choice p m = some (p', m')) :
    knows (.producer p') m' := by
  unfold stepProducer at hstep
  cases hpc : p.pc <;> rw [hpc] at hstep
  case malloc | lock =>
    simp only at hstep
    split at hstep
    · obtain ⟨rfl, rfl⟩ := Prod.mk.inj (Option.some.inj hstep)
      exact nofun
    · cases hstep
  case setNum | print =>
    obtain ⟨node, -, heq⟩ := Option.map_eq_some_iff.mp hstep
    obtain ⟨rfl, rfl⟩ := Prod.mk.inj heq
    exact nofun
  case link =>
    obtain ⟨node, -, heq⟩ := Option.map_eq_some_iff.mp hstep
    obtain ⟨rfl, rfl⟩ := Prod.mk.inj heq
    intro _
    exact ⟨_, i, Function.update_self .., rfl, hinv (by rw [hpc]; rfl)⟩
  case publish | unlock | sleep =>
    obtain ⟨rfl, rfl⟩ := Prod.mk.inj (Option.some.inj hstep)
    exact nofun
  case signal => cases hstep

theorem stepProducer_outside {i : ℕ} {choice : Choice} {p p' : Producer} {m m' : Memory}
    (hstep : stepProducer i choice p m = some (p', m'))
    (hout : p.pc.locks = false) (hout' : p'.pc.locks = false) {y : Local} (hy : knows y m) :
    knows y m' := by
  unfold stepProducer at hstep
  cases hpc : p.pc <;> rw [hpc] at hstep hout
  case malloc =>
    simp only at hstep
    split at hstep
    · next hnew =>
      obtain ⟨rfl, rfl⟩ := Prod.mk.inj (Option.some.inj hstep)
      cases y with
      | consumer d => exact hy
      | producer q =>
        intro hq
        obtain ⟨node, j, hnode, hnext, hown⟩ := hy hq
        have hne : q.mp ≠ choice.address := by
          intro heq
          rw [heq, hnew.2] at hnode
          cases hnode
        refine ⟨node, j, ?_, hnext, ?_⟩
        · exact (Function.update_of_ne hne ..).trans hnode
        · exact (Function.update_of_ne hne ..).trans hown
    · cases hstep
  case setNum =>
    obtain ⟨node, hnode, heq⟩ := Option.map_eq_some_iff.mp hstep
    obtain ⟨rfl, rfl⟩ := Prod.mk.inj heq
    cases y with
    | consumer d => exact hy
    | producer q =>
      intro hq
      obtain ⟨node', j, hnode', hnext, hown⟩ := hy hq
      -- Whatever node it is, its link stays.
      by_cases hqp : q.mp = p.mp
      · rw [hqp, hnode] at hnode'
        obtain rfl := Option.some.inj hnode'
        refine ⟨{ node with num := choice.rand % 1000 + 1 }, j, ?_, hnext, hown⟩
        rw [hqp]
        exact Function.update_self ..
      · exact ⟨node', j, (Function.update_of_ne hqp ..).trans hnode', hnext, hown⟩
  case print =>
    obtain ⟨node, -, heq⟩ := Option.map_eq_some_iff.mp hstep
    obtain ⟨rfl, rfl⟩ := Prod.mk.inj heq
    exact hy
  case lock =>
    simp only at hstep
    split at hstep
    · obtain ⟨rfl, rfl⟩ := Prod.mk.inj (Option.some.inj hstep)
      cases hout'
    · cases hstep
  case signal => cases hstep
  case sleep =>
    obtain ⟨rfl, rfl⟩ := Prod.mk.inj (Option.some.inj hstep)
    exact hy
  all_goals cases hout

theorem stepProducer_inv {i : ℕ} {choice : Choice} {p p' : Producer} {m m' : Memory}
    (hm : MemInv m) (hinv : ProducerInv m i p)
    (hknows : p.pc.locks = true → knows (.producer p) m)
    (hstep : stepProducer i choice p m = some (p', m')) :
    MemInv m' ∧ ProducerInv m' i p' ∧ Keeps (.producer i) m m' := by
  unfold stepProducer at hstep
  cases hpc : p.pc <;> rw [hpc] at hstep
  case malloc =>
    simp only at hstep
    split at hstep
    · next hnew =>
      obtain ⟨rfl, rfl⟩ := Prod.mk.inj (Option.some.inj hstep)
      refine ⟨hm.alloc hnew.1 hnew.2 _ _, fun _ => Function.update_self .., ?_⟩
      refine .of_update rfl (fun u _ hu => ?_) (fun y hy => hy) fun _ _ _ _ hx => hx
      rw [hm.owner_of_free hnew.2] at hu
      cases hu
    · cases hstep
  case setNum | link =>
    have hown := hinv (by rw [hpc]; rfl)
    obtain ⟨node, -, heq⟩ := Option.map_eq_some_iff.mp hstep
    obtain ⟨rfl, rfl⟩ := Prod.mk.inj heq
    exact ⟨hm.write hown _, fun _ => hown, .of_eq rfl rfl rfl⟩
  case print =>
    obtain ⟨node, -, heq⟩ := Option.map_eq_some_iff.mp hstep
    obtain ⟨rfl, rfl⟩ := Prod.mk.inj heq
    exact ⟨hm, fun _ => hinv (by rw [hpc]; rfl), .of_eq rfl rfl rfl⟩
  case lock =>
    simp only at hstep
    split at hstep
    · obtain ⟨rfl, rfl⟩ := Prod.mk.inj (Option.some.inj hstep)
      exact ⟨hm.setMutex _, fun _ => hinv (by rw [hpc]; rfl), .of_eq rfl rfl rfl⟩
    · cases hstep
  case publish =>
    obtain ⟨rfl, rfl⟩ := Prod.mk.inj (Option.some.inj hstep)
    have hown := hinv (by rw [hpc]; rfl)
    obtain ⟨node, j, hnode, hnext, -⟩ := hknows (by rw [hpc]; rfl) hpc
    refine ⟨hm.push hown hnode hnext, nofun, ?_⟩
    refine .of_update rfl (fun u hu hu' => ?_) (fun y hy => hy) fun _ _ _ _ hx => hx
    rw [hown] at hu'
    exact hu (Owner.thread.inj hu').symm
  case unlock =>
    obtain ⟨rfl, rfl⟩ := Prod.mk.inj (Option.some.inj hstep)
    exact ⟨hm.setMutex _, nofun, .of_eq rfl rfl rfl⟩
  case signal => cases hstep
  case sleep =>
    obtain ⟨rfl, rfl⟩ := Prod.mk.inj (Option.some.inj hstep)
    exact ⟨hm, nofun, .of_eq rfl rfl rfl⟩

/-! ## Wake-ups -/

/-- Awake and looking for an item. -/
def looking (c : Consumer) : Bool :=
  match c.pc with
  | .lock | .test | .woken | .take | .advance => true
  | _ => false

/-- Has pushed an item and not signalled yet. -/
def unsignalled (p : Producer) : Bool :=
  match p.pc with
  | .unlock | .signal => true
  | _ => false

def Blocked (s : CondStack) : Prop := ∃ c ∈ s.consumers, c.pc = .blocked

/-- While a consumer is blocked, each item is matched by a consumer that is looking for one or a
signal that is to come. -/
def Wakes (s : CondStack) : Prop :=
  Blocked s →
    s.memory.stack.length ≤ s.consumers.countP looking + s.producers.countP unsignalled

/-- A consumer stops looking when it takes an item or finds none. -/
theorem stepConsumer_looking {i : ℕ} {c c' : Consumer} {m m' : Memory} (hm : MemInv m)
    (hknows : c.pc.locks = true → knows (.consumer c) m)
    (hstep : stepConsumer i c m = some (c', m')) :
    m'.stack = [] ∨ c'.pc ≠ .blocked ∧
      m'.stack.length + (if looking c then 1 else 0) ≤
        m.stack.length + (if looking c' then 1 else 0) := by
  have hempty : m.head = 0 → m.stack = [] := by
    intro hhead
    exact List.map_eq_nil_iff.mp (hm.linked.head_eq_zero_iff.mp hhead)
  unfold stepConsumer at hstep
  cases hpc : c.pc <;> rw [hpc] at hstep
  case lock | woken =>
    simp only at hstep
    split at hstep
    · obtain ⟨rfl, rfl⟩ := Prod.mk.inj (Option.some.inj hstep)
      exact .inr ⟨nofun, by simp [looking, hpc]⟩
    · cases hstep
  case test =>
    obtain ⟨rfl, rfl⟩ := Prod.mk.inj (Option.some.inj hstep)
    by_cases hhead : m.head = 0
    · exact .inl (hempty hhead)
    · exact .inr (by simp [looking, hpc, hhead])
  case wait =>
    obtain ⟨rfl, rfl⟩ := Prod.mk.inj (Option.some.inj hstep)
    exact .inl (hempty ((hknows (by rw [hpc]; rfl)).1 hpc))
  case blocked => cases hstep
  case take | unlock | sleep =>
    obtain ⟨rfl, rfl⟩ := Prod.mk.inj (Option.some.inj hstep)
    exact .inr ⟨nofun, by simp [looking, hpc]⟩
  case advance =>
    obtain ⟨hhead, -⟩ := (hknows (by rw [hpc]; rfl)).2.2 hpc
    obtain ⟨node, x, rest, hnode, hstack, -⟩ := hm.pop hhead i
    rw [hnode, Option.map_some, hstack] at hstep
    obtain ⟨rfl, rfl⟩ := Prod.mk.inj (Option.some.inj hstep)
    exact .inr ⟨nofun, by simp [looking, hpc, hstack]⟩
  case print | free =>
    obtain ⟨node, -, heq⟩ := Option.map_eq_some_iff.mp hstep
    obtain ⟨rfl, rfl⟩ := Prod.mk.inj heq
    exact .inr ⟨nofun, by simp [looking, hpc]⟩

/-- A producer that pushes an item owes a signal. -/
theorem stepProducer_unsignalled {i : ℕ} {choice : Choice} {p p' : Producer} {m m' : Memory}
    (hstep : stepProducer i choice p m = some (p', m')) :
    m'.stack.length + (if unsignalled p then 1 else 0) =
      m.stack.length + (if unsignalled p' then 1 else 0) := by
  unfold stepProducer at hstep
  cases hpc : p.pc <;> rw [hpc] at hstep
  case malloc | lock =>
    simp only at hstep
    split at hstep
    · obtain ⟨rfl, rfl⟩ := Prod.mk.inj (Option.some.inj hstep)
      simp [unsignalled, hpc]
    · cases hstep
  case setNum | print | link =>
    obtain ⟨node, -, heq⟩ := Option.map_eq_some_iff.mp hstep
    obtain ⟨rfl, rfl⟩ := Prod.mk.inj heq
    simp [unsignalled, hpc]
  case publish | unlock | sleep =>
    obtain ⟨rfl, rfl⟩ := Prod.mk.inj (Option.some.inj hstep)
    simp [unsignalled, hpc]
  case signal => cases hstep

/-! ## The invariant -/

/-- Mutual exclusion and ownership. -/
structure Core (s : CondStack) : Prop where
  mutex : monitor.Inv (view s)
  memory : MemInv s.memory
  consumers : ∀ i c, s.consumers[i]? = some c → ConsumerInv s.memory i c
  producers : ∀ i p, s.producers[i]? = some p → ProducerInv s.memory i p

structure Inv (s : CondStack) : Prop extends Core s where
  wakes : Wakes s

theorem Inv.consumer_knows {s : CondStack} (h : Inv s) {i : ℕ} {c : Consumer}
    (hc : s.consumers[i]? = some c) (hlocks : c.pc.locks = true) : knows (.consumer c) s.memory :=
  h.mutex.inside (.consumer i) _ (congrArg (Option.map Local.consumer) hc) hlocks

theorem Inv.producer_knows {s : CondStack} (h : Inv s) {i : ℕ} {p : Producer}
    (hp : s.producers[i]? = some p) (hlocks : p.pc.locks = true) : knows (.producer p) s.memory :=
  h.mutex.inside (.producer i) _ (congrArg (Option.map Local.producer) hp) hlocks

/-- A step of consumer `i`. -/
theorem Inv.stepConsumer {s : CondStack} (h : Inv s) {i : ℕ} {c c' : Consumer} {m' : Memory}
    (hc : s.consumers[i]? = some c) (hstep : stepConsumer i c s.memory = some (c', m')) :
    Inv { s with memory := m', consumers := s.consumers.set i c' } := by
  have hknows := h.consumer_knows hc
  have hinv := h.consumers i c hc
  obtain ⟨hm', hinv', hkeeps⟩ := stepConsumer_inv h.memory hinv hknows hstep
  have hself : (s.consumers.set i c')[i]? = some c' :=
    List.getElem?_set_self (List.getElem?_eq_some_iff.mp hc).1
  have hother : ∀ j, j ≠ i → (s.consumers.set i c')[j]? = s.consumers[j]? :=
    fun j hj => List.getElem?_set_ne hj.symm
  refine ⟨⟨?_, hm', fun j d hd => ?_, fun j p hp => ?_⟩, ?_⟩
  · refine h.mutex.move (t := .consumer i) (x := .consumer c) (y := .consumer c')
      (congrArg (Option.map Local.consumer) hc) (congrArg (Option.map Local.consumer) hself)
      (fun u hu z _ => iff_of_eq (congrArg (· = some z) (thread_setConsumer hu c' m'))) ?_
    exact .of_discipline (stepConsumer_discipline hstep)
        (owes (fun _ => stepConsumer_knows hstep hknows)
          fun hout hout' y hy => stepConsumer_outside hinv hstep hout hout' hy)
  · by_cases hj : j = i
    · subst hj
      obtain rfl := Option.some.inj (hself.symm.trans hd)
      exact hinv'
    · rw [hother j hj] at hd
      exact hkeeps.consumer (fun heq => hj (Tid.consumer.inj heq)) (h.consumers j d hd)
  · exact hkeeps.producer nofun (h.producers j p hp)
  · rintro ⟨d, hd, hblocked⟩
    rcases stepConsumer_looking h.memory hknows hstep with hempty | ⟨hne, hcount⟩
    · show m'.stack.length ≤ _
      rw [hempty]
      exact Nat.zero_le _
    · have hold : d ∈ s.consumers := by
        rcases List.mem_or_eq_of_mem_set hd with hmem | rfl
        · exact hmem
        · exact absurd hblocked hne
      have hwakes := h.wakes ⟨d, hold, hblocked⟩
      have hset := countP_set_add (p := looking) (b := c') hc
      simp only
      omega

/-- A step of producer `i` other than its signal. -/
theorem Inv.stepProducer {s : CondStack} (h : Inv s) {i : ℕ} {choice : Choice}
    {p p' : Producer} {m' : Memory} (hp : s.producers[i]? = some p)
    (hstep : stepProducer i choice p s.memory = some (p', m')) :
    Inv { s with memory := m', producers := s.producers.set i p' } := by
  have hknows := h.producer_knows hp
  have hinv := h.producers i p hp
  obtain ⟨hm', hinv', hkeeps⟩ := stepProducer_inv h.memory hinv hknows hstep
  have hself : (s.producers.set i p')[i]? = some p' :=
    List.getElem?_set_self (List.getElem?_eq_some_iff.mp hp).1
  have hother : ∀ j, j ≠ i → (s.producers.set i p')[j]? = s.producers[j]? :=
    fun j hj => List.getElem?_set_ne hj.symm
  refine ⟨⟨?_, hm', fun j c hc => ?_, fun j q hq => ?_⟩, fun hblocked => ?_⟩
  · refine h.mutex.move (t := .producer i) (x := .producer p) (y := .producer p')
      (congrArg (Option.map Local.producer) hp) (congrArg (Option.map Local.producer) hself)
      (fun u hu z _ => iff_of_eq (congrArg (· = some z) (thread_setProducer hu p' m'))) ?_
    exact .of_discipline (stepProducer_discipline hstep)
        (owes (fun _ => stepProducer_knows hinv hstep)
          fun hout hout' y hy => stepProducer_outside hstep hout hout' hy)
  · exact hkeeps.consumer nofun (h.consumers j c hc)
  · by_cases hj : j = i
    · subst hj
      obtain rfl := Option.some.inj (hself.symm.trans hq)
      exact hinv'
    · rw [hother j hj] at hq
      exact hkeeps.producer (fun heq => hj (Tid.producer.inj heq)) (h.producers j q hq)
  · have hwakes := h.wakes hblocked
    have hcount := stepProducer_unsignalled hstep
    have hset := countP_set_add (p := unsignalled) (b := p') hp
    simp only
    omega

/-- A consumer that has neither the mutex nor a node changes place. -/
theorem Core.setConsumer {s : CondStack} (h : Core s) {i : ℕ} {c c' : Consumer}
    (hc : s.consumers[i]? = some c) (hout : c.pc.locks = false) (hout' : c'.pc.locks = false)
    (howns : c'.pc.owns = false) : Core { s with consumers := s.consumers.set i c' } := by
  have hself : (s.consumers.set i c')[i]? = some c' :=
    List.getElem?_set_self (List.getElem?_eq_some_iff.mp hc).1
  have hother : ∀ j, j ≠ i → (s.consumers.set i c')[j]? = s.consumers[j]? :=
    fun j hj => List.getElem?_set_ne hj.symm
  refine ⟨?_, h.memory, fun j d hd => ?_, h.producers⟩
  · refine h.mutex.move (t := .consumer i) (x := .consumer c) (y := .consumer c')
      (congrArg (Option.map Local.consumer) hc) (congrArg (Option.map Local.consumer) hself)
      (fun u hu z _ => iff_of_eq (congrArg (· = some z) (thread_setConsumer hu c' s.memory)))
      (.outside hout hout' id fun _ _ hy => hy)
  · by_cases hj : j = i
    · subst hj
      obtain rfl := Option.some.inj (hself.symm.trans hd)
      intro howns'
      rw [howns] at howns'
      cases howns'
    · rw [hother j hj] at hd
      exact h.consumers j d hd

theorem Core.setProducer {s : CondStack} (h : Core s) {i : ℕ} {p p' : Producer}
    (hp : s.producers[i]? = some p) (hout : p.pc.locks = false) (hout' : p'.pc.locks = false)
    (howns : p'.pc.owns = false) : Core { s with producers := s.producers.set i p' } := by
  have hself : (s.producers.set i p')[i]? = some p' :=
    List.getElem?_set_self (List.getElem?_eq_some_iff.mp hp).1
  have hother : ∀ j, j ≠ i → (s.producers.set i p')[j]? = s.producers[j]? :=
    fun j hj => List.getElem?_set_ne hj.symm
  refine ⟨?_, h.memory, h.consumers, fun j q hq => ?_⟩
  · refine h.mutex.move (t := .producer i) (x := .producer p) (y := .producer p')
      (congrArg (Option.map Local.producer) hp) (congrArg (Option.map Local.producer) hself)
      (fun u hu z _ => iff_of_eq (congrArg (· = some z) (thread_setProducer hu p' s.memory)))
      (.outside hout hout' id fun _ _ hy => hy)
  · by_cases hj : j = i
    · subst hj
      obtain rfl := Option.some.inj (hself.symm.trans hq)
      intro howns'
      rw [howns] at howns'
      cases howns'
    · rw [hother j hj] at hq
      exact h.producers j q hq

/-- What waking a consumer does. -/
theorem wake_eq_some {i : ℕ} {s s' : CondStack} (h : wake i s = some s') :
    ∃ c, s.consumers[i]? = some c ∧ c.pc = .blocked ∧
      s' = { s with consumers := s.consumers.set i { c with pc := .woken } } := by
  unfold wake at h
  split at h
  · next c hc =>
    split at h
    · next hpc => exact ⟨c, hc, hpc, (Option.some.inj h).symm⟩
    · cases h
  · cases h

theorem Core.wake {i : ℕ} {s s' : CondStack} (h : Core s) (hwake : wake i s = some s') :
    Core s' ∧ s'.memory = s.memory ∧ s'.producers = s.producers ∧
      s'.consumers.countP looking = s.consumers.countP looking + 1 ∧ Blocked s := by
  obtain ⟨c, hc, hpc, rfl⟩ := wake_eq_some hwake
  refine ⟨h.setConsumer hc (by rw [hpc]; rfl) rfl rfl, rfl, rfl, ?_,
    ⟨c, List.mem_of_getElem? hc, hpc⟩⟩
  have hset := countP_set_add (p := looking) (b := { c with pc := .woken }) hc
  have hold : looking c = false := by rw [looking, hpc]
  have hnew : looking { c with pc := .woken } = true := rfl
  rw [hold, hnew] at hset
  exact hset

/-- A signal that is sent is answered by a consumer that begins to look, if one is blocked. -/
theorem Inv.signal {s s' : CondStack} (h : Inv s) {i : ℕ} {p : Producer} {woken : Option ℕ}
    (hp : s.producers[i]? = some p) (hpc : p.pc = .signal)
    (hstep : signal woken { s with producers := s.producers.set i { p with pc := .sleep } } =
      some s') : Inv s' := by
  have hcore : Core { s with producers := s.producers.set i { p with pc := .sleep } } :=
    h.toCore.setProducer hp (by rw [hpc]; rfl) rfl rfl
  have hset := countP_set_add (p := unsignalled) (b := { p with pc := .sleep }) hp
  have hold : unsignalled p = true := by rw [unsignalled, hpc]
  have hnew : unsignalled { p with pc := .sleep } = false := rfl
  rw [hold, hnew] at hset
  unfold CondStack.signal at hstep
  cases woken with
  | some j =>
    obtain ⟨hcore', hmemory, hproducers, hcount, hblocked⟩ := hcore.wake hstep
    refine ⟨hcore', fun _ => ?_⟩
    have hwakes := h.wakes hblocked
    rw [hmemory, hproducers, hcount]
    simp only [Bool.false_eq_true, if_true, if_false] at hset ⊢
    omega
  | none =>
    simp only at hstep
    split at hstep
    · cases hstep
    · next hnone =>
      obtain rfl := Option.some.inj hstep
      refine ⟨hcore, ?_⟩
      rintro ⟨c, hc, hblocked⟩
      exact absurd (List.any_eq_true.mpr ⟨c, hc, decide_eq_true hblocked⟩) hnone

theorem Inv.step {s s' : CondStack} (h : Inv s) {l : Label} (hstep : step s l = some s') :
    Inv s' := by
  unfold CondStack.step at hstep
  cases l with
  | consumer i =>
    simp only at hstep
    split at hstep
    · next c hc =>
      obtain ⟨r, hr, rfl⟩ := Option.map_eq_some_iff.mp hstep
      exact h.stepConsumer hc hr
    · cases hstep
  | producer i choice =>
    simp only at hstep
    split at hstep
    · next p hp =>
      obtain ⟨r, hr, rfl⟩ := Option.map_eq_some_iff.mp hstep
      exact h.stepProducer hp hr
    · cases hstep
  | signal i woken =>
    simp only at hstep
    split at hstep
    · next p hp =>
      split at hstep
      · next hpc => exact h.signal hp hpc hstep
      · cases hstep
    · cases hstep
  | spurious i =>
    obtain ⟨hcore, hmemory, hproducers, hcount, hblocked⟩ := h.toCore.wake hstep
    refine ⟨hcore, fun _ => ?_⟩
    have hwakes := h.wakes hblocked
    rw [hmemory, hproducers, hcount]
    omega

theorem start_inv (consumers producers : ℕ) : Inv (start consumers producers) := by
  have hconsumer : ∀ c ∈ (start consumers producers).consumers, c = ⟨.lock, 0, none⟩ :=
    fun c hc => List.eq_of_mem_replicate hc
  have hproducer : ∀ p ∈ (start consumers producers).producers, p = ⟨.malloc, 0⟩ :=
    fun p hp => List.eq_of_mem_replicate hp
  refine ⟨⟨.of_nobody rfl (fun u z hz => ?_) trivial, start_memInv consumers producers,
    fun i c hc => ?_, fun i p hp => ?_⟩, ?_⟩
  · cases u with
    | consumer i =>
      obtain ⟨c, hc, rfl⟩ := Option.map_eq_some_iff.mp hz
      rw [hconsumer c (List.mem_of_getElem? hc)]
      rfl
    | producer i =>
      obtain ⟨p, hp, rfl⟩ := Option.map_eq_some_iff.mp hz
      rw [hproducer p (List.mem_of_getElem? hp)]
      rfl
  · rw [hconsumer c (List.mem_of_getElem? hc)]
    exact nofun
  · rw [hproducer p (List.mem_of_getElem? hp)]
    exact nofun
  · rintro ⟨c, hc, hblocked⟩
    rw [hconsumer c hc] at hblocked
    cases hblocked

theorem inv_of_run {consumers producers : ℕ} {h : List (Event CondStack Label)} {s : CondStack}
    (hrun : (program consumers producers).Run h s) : Inv s := by
  refine hrun.invariant (I := Inv) ?_ ?_
  · rintro s rfl
    exact start_inv consumers producers
  · intro s l s' _ hstep hinv
    exact hinv.step hstep

/-! ## What the program guarantees -/

/-- The list at `head` is what was pushed and not consumed, the last first; an item is consumed
once, and freed once by the consumer that took it; every node that is accessed is there; no
wake-up is lost. -/
structure Safe (s : CondStack) : Prop where
  list : Linked Msg.next s.memory.heap s.memory.head (s.memory.pending.map Item.address)
  nums : ∀ x ∈ s.memory.pending, (s.memory.heap x.address).map Msg.num = some x.num
  ids : s.memory.pushed.map Item.id = List.range s.memory.pushed.length
  once : s.memory.consumedItems.Nodup ∧ ∀ x ∈ s.memory.consumedItems, x ∈ s.memory.pushed
  freed : s.memory.freedItems.Nodup ∧ ∀ y ∈ s.memory.freed, y ∈ s.memory.consumed
  free : ∀ i c, s.consumers[i]? = some c → c.pc = .free → ∃ x, x.address = c.mp ∧
    (i, x) ∈ s.memory.consumed ∧ x ∉ s.memory.freedItems
  null : ∀ c ∈ s.consumers, c.pc = .advance →
    s.memory.head ≠ 0 ∧ ∃ node, s.memory.heap s.memory.head = some node
  consumers : ∀ c ∈ s.consumers, c.pc.owns = true → ∃ node, s.memory.heap c.mp = some node
  producers : ∀ p ∈ s.producers, p.pc.owns = true → ∃ node, s.memory.heap p.mp = some node
  wakes : Blocked s →
    s.memory.pending.length ≤ s.consumers.countP looking + s.producers.countP unsignalled

theorem Inv.safe {s : CondStack} (h : Inv s) : Safe s := by
  have hm := h.memory
  have hthere : ∀ {a : ℕ} {t : Tid}, s.memory.owner a = .thread t →
      ∃ node, s.memory.heap a = some node :=
    fun {a t} hown => (hm.allocated a (by rw [hown]; exact nofun)).2
  refine ⟨hm.lifo ▸ hm.linked, hm.lifo ▸ hm.nums, hm.ids, ⟨hm.once, hm.consumed⟩,
    ⟨hm.freed_once, hm.freed⟩, fun i c hc hpc => ?_, fun c hc hpc => ?_, fun c hc howns => ?_,
    fun p hp howns => ?_, hm.lifo ▸ h.wakes⟩
  · obtain ⟨-, x, -, hx, hmem, hnew⟩ := h.consumers i c hc (by rw [hpc]; rfl)
    exact ⟨x, hx, hmem, hnew⟩
  · obtain ⟨i, hi⟩ := List.mem_iff_getElem?.mp hc
    obtain ⟨hhead, -⟩ := (h.consumer_knows hi (by rw [hpc]; rfl)).2.2 hpc
    obtain ⟨node, -, hnode, -⟩ := hm.linked.uncons hhead
    exact ⟨hhead, node, hnode⟩
  · obtain ⟨i, hi⟩ := List.mem_iff_getElem?.mp hc
    exact hthere (h.consumers i c hi howns).1
  · obtain ⟨i, hi⟩ := List.mem_iff_getElem?.mp hp
    exact hthere (h.producers i p hi howns)

/-- **The condition-variable stack is safe** for any number of producers and consumers and
every interleaving, spurious wake-ups included. -/
theorem cond_stack_safe (consumers producers : ℕ) (h : List (Event CondStack Label))
    (s : CondStack) (hrun : (program consumers producers).Run h s) : Safe s :=
  (inv_of_run hrun).safe

/-- One of two consumers waits for the first item, takes it and frees it. -/
theorem cond_stack_safe_one_item : ∃ h s, (program 2 1).Run h s ∧
    s.memory.freed = [(0, ⟨0, 16, 8⟩)] ∧ Safe s := by
  obtain ⟨h, s, hrun, hP⟩ := System.exists_run_of_exec (start 2 1) step
    (List.replicate 3 (.consumer 0) ++ List.replicate 7 (.producer 0 ⟨16, ⟨0, 0⟩, 7⟩) ++
      [.signal 0 (some 0)] ++ List.replicate 7 (.consumer 0))
    (fun _ s => decide (s.memory.freed = [(0, ⟨0, 16, 8⟩)])) (by decide +kernel)
  exact ⟨h, s, hrun, of_decide_eq_true hP, cond_stack_safe 2 1 h s hrun⟩

end LinuxExercise.ThreadSync.CondStack
