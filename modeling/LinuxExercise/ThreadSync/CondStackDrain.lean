import LinuxExercise.Framework.Termination
import LinuxExercise.ThreadSync.CondStackSafety

/-!
# The stack program leaks nothing and drains

Every node that is allocated is in the list or held by a thread that will push or free it
(`NoLeak`), so a node can only be lost by an item that nobody comes to take.  That does not
happen either: when the producers begin no new item, all threads come to rest after a bounded
number of statements, in whatever order, and then every item that was ever pushed has been taken
and freed, the heap is empty and the consumers are blocked.  No spurious wake-up is needed for
it, which is what the signal of each push is worth.

Each statement lowers `CondStack.budget`.  An item in the list pays for the round of the consumer
that takes it, and a signal for the consumer that it wakes.
-/

namespace LinuxExercise.ThreadSync.CondStack

/-! ## What is allocated -/

/-- The node that a thread holds. -/
def Local.node : Local → Option ℕ
  | .consumer c => if c.pc.owns then some c.mp else none
  | .producer p => if p.pc.owns then some p.mp else none

/-- Every node belongs to the list or to the thread that holds it, and an item that has been
taken is freed or with its consumer. -/
structure NoLeak (s : CondStack) : Prop where
  owned : ∀ a node, s.memory.heap a = some node → s.memory.owner a ≠ .nobody
  held : ∀ t a, s.memory.owner a = .thread t → ∃ x, thread s t = some x ∧ x.node = some a
  freed : ∀ i x, (i, x) ∈ s.memory.consumed → (i, x) ∈ s.memory.freed ∨
    ∃ c, s.consumers[i]? = some c ∧ c.pc.owns = true ∧ c.item = some x

/-- What the step of a thread from `x` to `x'` does about the nodes. -/
structure Accounts (t : Tid) (x x' : Local) (m m' : Memory) : Prop where
  owned : (∀ a node, m.heap a = some node → m.owner a ≠ .nobody) →
    ∀ a node, m'.heap a = some node → m'.owner a ≠ .nobody
  mine : (∀ a, m.owner a = .thread t → x.node = some a) →
    ∀ a, m'.owner a = .thread t → x'.node = some a
  others : ∀ u a, u ≠ t → m'.owner a = .thread u → m.owner a = .thread u

/-- The thread goes on with the node that it has. -/
theorem Accounts.of_eq {t : Tid} {x x' : Local} {m m' : Memory}
    (hheap : ∀ a node, m'.heap a = some node → ∃ node', m.heap a = some node')
    (howner : m'.owner = m.owner) (hnode : x'.node = x.node) : Accounts t x x' m m' where
  owned h a node ha := by
    obtain ⟨node', hnode'⟩ := hheap a node ha
    rw [howner]
    exact h a node' hnode'
  mine h a ha := by
    rw [hnode]
    exact h a (howner ▸ ha)
  others u a _ ha := by rwa [howner] at ha

/-- The thread is given the node `a`, having none. -/
theorem Accounts.receive {t : Tid} {x x' : Local} {m m' : Memory} {a : ℕ}
    (hheap : ∀ b, b ≠ a → m'.heap b = m.heap b)
    (howner : m'.owner = Function.update m.owner a (.thread t))
    (hnode : x.node = none) (hnode' : x'.node = some a) : Accounts t x x' m m' where
  owned h b node hb := by
    rw [howner]
    by_cases hba : b = a
    · rw [hba, Function.update_self]
      exact nofun
    · rw [Function.update_of_ne hba]
      exact h b node (hheap b hba ▸ hb)
  mine h b hb := by
    rw [howner] at hb
    by_cases hba : b = a
    · rw [hba, hnode']
    · rw [Function.update_of_ne hba] at hb
      have hmine := h b hb
      rw [hnode] at hmine
      cases hmine
  others u b hu hb := by
    rw [howner] at hb
    by_cases hba : b = a
    · rw [hba, Function.update_self] at hb
      exact absurd (Owner.thread.inj hb).symm hu
    · rwa [Function.update_of_ne hba] at hb

/-- The thread gives its node to the list, or back to the heap. -/
theorem Accounts.give {t : Tid} {x x' : Local} {m m' : Memory} {a : ℕ} {o : Owner}
    (hheap : ∀ b, b ≠ a → m'.heap b = m.heap b) (hgone : o = .nobody → m'.heap a = none)
    (ho : ∀ u, o ≠ .thread u) (howner : m'.owner = Function.update m.owner a o)
    (hnode : x.node = some a) : Accounts t x x' m m' where
  owned h b node hb := by
    rw [howner]
    by_cases hba : b = a
    · subst hba
      rw [Function.update_self]
      intro hnobody
      rw [hgone hnobody] at hb
      cases hb
    · rw [Function.update_of_ne hba]
      exact h b node (hheap b hba ▸ hb)
  mine h b hb := by
    rw [howner] at hb
    by_cases hba : b = a
    · rw [hba, Function.update_self] at hb
      exact absurd hb (ho t)
    · rw [Function.update_of_ne hba] at hb
      have hmine := h b hb
      rw [hnode] at hmine
      exact absurd (Option.some.inj hmine).symm hba
  others u b _ hb := by
    rw [howner] at hb
    by_cases hba : b = a
    · rw [hba, Function.update_self] at hb
      exact absurd hb (ho u)
    · rwa [Function.update_of_ne hba] at hb

theorem stepConsumer_accounts {i : ℕ} {c c' : Consumer} {m m' : Memory}
    (hknows : c.pc.locks = true → knows (.consumer c) m)
    (hstep : stepConsumer i c m = some (c', m')) :
    Accounts (.consumer i) (.consumer c) (.consumer c') m m' := by
  unfold stepConsumer at hstep
  cases hpc : c.pc <;> rw [hpc] at hstep
  case lock | woken =>
    simp only at hstep
    split at hstep
    · obtain ⟨rfl, rfl⟩ := Prod.mk.inj (Option.some.inj hstep)
      exact .of_eq (fun a node ha => ⟨node, ha⟩) rfl (by simp [Local.node, hpc, ConsumerPc.owns])
    · cases hstep
  case test =>
    obtain ⟨rfl, rfl⟩ := Prod.mk.inj (Option.some.inj hstep)
    refine .of_eq (fun a node ha => ⟨node, ha⟩) rfl ?_
    by_cases hhead : m.head = 0
    · simp [Local.node, hpc, hhead, ConsumerPc.owns]
    · simp [Local.node, hpc, hhead, ConsumerPc.owns]
  case wait | take | unlock | sleep =>
    obtain ⟨rfl, rfl⟩ := Prod.mk.inj (Option.some.inj hstep)
    exact .of_eq (fun a node ha => ⟨node, ha⟩) rfl (by simp [Local.node, hpc, ConsumerPc.owns])
  case blocked => cases hstep
  case advance =>
    obtain ⟨-, hmp⟩ := (hknows (by rw [hpc]; rfl)).2.2 hpc
    obtain ⟨node, -, heq⟩ := Option.map_eq_some_iff.mp hstep
    obtain ⟨rfl, rfl⟩ := Prod.mk.inj heq
    exact .receive (fun b _ => rfl) rfl (by simp [Local.node, hpc, ConsumerPc.owns])
      (by simp [Local.node, ConsumerPc.owns, hmp])
  case print =>
    obtain ⟨node, -, heq⟩ := Option.map_eq_some_iff.mp hstep
    obtain ⟨rfl, rfl⟩ := Prod.mk.inj heq
    exact .of_eq (fun a node ha => ⟨node, ha⟩) rfl (by simp [Local.node, hpc, ConsumerPc.owns])
  case free =>
    obtain ⟨node, -, heq⟩ := Option.map_eq_some_iff.mp hstep
    obtain ⟨rfl, rfl⟩ := Prod.mk.inj heq
    exact .give (o := .nobody) (fun b hb => Function.update_of_ne hb ..)
      (fun _ => Function.update_self ..) (fun _ => nofun) rfl
      (by simp [Local.node, hpc, ConsumerPc.owns])

/-- A consumer has freed what it took, or holds it. -/
theorem stepConsumer_freed {i : ℕ} {c c' : Consumer} {m m' : Memory}
    (hstep : stepConsumer i c m = some (c', m')) :
    (∀ y ∈ m.freed, y ∈ m'.freed) ∧ (∀ j x, j ≠ i → (j, x) ∈ m'.consumed → (j, x) ∈ m.consumed) ∧
      ((∀ x, (i, x) ∈ m.consumed → (i, x) ∈ m.freed ∨ c.pc.owns = true ∧ c.item = some x) →
        ∀ x, (i, x) ∈ m'.consumed → (i, x) ∈ m'.freed ∨ c'.pc.owns = true ∧ c'.item = some x) := by
  unfold stepConsumer at hstep
  cases hpc : c.pc <;> rw [hpc] at hstep
  case lock | woken =>
    simp only at hstep
    split at hstep
    · obtain ⟨rfl, rfl⟩ := Prod.mk.inj (Option.some.inj hstep)
      exact ⟨fun y hy => hy, fun j x _ hx => hx, by simp [ConsumerPc.owns]⟩
    · cases hstep
  case test | wait | take | sleep =>
    obtain ⟨rfl, rfl⟩ := Prod.mk.inj (Option.some.inj hstep)
    refine ⟨fun y hy => hy, fun j x _ hx => hx, fun h x hx => .inl ?_⟩
    simpa [ConsumerPc.owns] using h x hx
  case unlock =>
    obtain ⟨rfl, rfl⟩ := Prod.mk.inj (Option.some.inj hstep)
    exact ⟨fun y hy => hy, fun j x _ hx => hx, by simp [ConsumerPc.owns]⟩
  case blocked => cases hstep
  case advance =>
    obtain ⟨node, -, heq⟩ := Option.map_eq_some_iff.mp hstep
    obtain ⟨rfl, rfl⟩ := Prod.mk.inj heq
    refine ⟨fun y hy => hy, fun j x hj hx => ?_, fun h x hx => ?_⟩
    · simpa [Ne.symm hj] using hx
    · rcases List.mem_append.mp hx with hold | hnew
      · exact .inl (by simpa [ConsumerPc.owns] using h x hold)
      · exact .inr ⟨rfl, by simpa using hnew⟩
  case print =>
    obtain ⟨node, -, heq⟩ := Option.map_eq_some_iff.mp hstep
    obtain ⟨rfl, rfl⟩ := Prod.mk.inj heq
    exact ⟨fun y hy => hy, fun j x _ hx => hx, by simp [ConsumerPc.owns]⟩
  case free =>
    obtain ⟨node, -, heq⟩ := Option.map_eq_some_iff.mp hstep
    obtain ⟨rfl, rfl⟩ := Prod.mk.inj heq
    refine ⟨fun y hy => List.mem_append_left _ hy, fun j x _ hx => hx, fun h x hx => .inl ?_⟩
    rcases h x hx with hold | ⟨-, hitem⟩
    · exact List.mem_append_left _ hold
    · exact List.mem_append_right _ (by simp [hitem])

theorem stepProducer_accounts {i : ℕ} {choice : Choice} {p p' : Producer} {m m' : Memory}
    (hstep : stepProducer i choice p m = some (p', m')) :
    Accounts (.producer i) (.producer p) (.producer p') m m' ∧ m'.consumed = m.consumed ∧
      m'.freed = m.freed := by
  unfold stepProducer at hstep
  cases hpc : p.pc <;> rw [hpc] at hstep
  case malloc =>
    simp only at hstep
    split at hstep
    · obtain ⟨rfl, rfl⟩ := Prod.mk.inj (Option.some.inj hstep)
      exact ⟨.receive (fun b hb => Function.update_of_ne hb ..) rfl
        (by simp [Local.node, hpc, ProducerPc.owns]) rfl, rfl, rfl⟩
    · cases hstep
  case setNum | link =>
    obtain ⟨node, hnode, heq⟩ := Option.map_eq_some_iff.mp hstep
    obtain ⟨rfl, rfl⟩ := Prod.mk.inj heq
    refine ⟨.of_eq (fun a node' ha => ?_) rfl (by simp [Local.node, hpc, ProducerPc.owns]), rfl,
      rfl⟩
    by_cases hmp : a = p.mp
    · exact ⟨node, hmp ▸ hnode⟩
    · exact ⟨node', (Function.update_of_ne hmp ..).symm.trans ha⟩
  case print =>
    obtain ⟨node, -, heq⟩ := Option.map_eq_some_iff.mp hstep
    obtain ⟨rfl, rfl⟩ := Prod.mk.inj heq
    exact ⟨.of_eq (fun a node ha => ⟨node, ha⟩) rfl (by simp [Local.node, hpc, ProducerPc.owns]),
      rfl, rfl⟩
  case lock =>
    simp only at hstep
    split at hstep
    · obtain ⟨rfl, rfl⟩ := Prod.mk.inj (Option.some.inj hstep)
      exact ⟨.of_eq (fun a node ha => ⟨node, ha⟩) rfl
        (by simp [Local.node, hpc, ProducerPc.owns]), rfl, rfl⟩
    · cases hstep
  case publish =>
    obtain ⟨rfl, rfl⟩ := Prod.mk.inj (Option.some.inj hstep)
    exact ⟨.give (o := .list) (fun b _ => rfl) nofun (fun _ => nofun) rfl
      (by simp [Local.node, hpc, ProducerPc.owns]), rfl, rfl⟩
  case unlock | sleep =>
    obtain ⟨rfl, rfl⟩ := Prod.mk.inj (Option.some.inj hstep)
    exact ⟨.of_eq (fun a node ha => ⟨node, ha⟩) rfl (by simp [Local.node, hpc, ProducerPc.owns]),
      rfl, rfl⟩
  case signal => cases hstep

/-- A step of thread `t` that accounts for its node. -/
theorem NoLeak.move {s s' : CondStack} (h : NoLeak s) {t : Tid} (x x' : Local)
    (hx : thread s t = some x) (hx' : thread s' t = some x')
    (hothers : ∀ u, u ≠ t → thread s' u = thread s u)
    (hstep : Accounts t x x' s.memory s'.memory)
    (hfreed : ∀ i y, (i, y) ∈ s'.memory.consumed → (i, y) ∈ s'.memory.freed ∨
      ∃ c, s'.consumers[i]? = some c ∧ c.pc.owns = true ∧ c.item = some y) : NoLeak s' := by
  refine ⟨hstep.owned h.owned, fun u a ha => ?_, hfreed⟩
  by_cases hu : u = t
  · subst hu
    refine ⟨x', hx', hstep.mine (fun b hb => ?_) a ha⟩
    obtain ⟨y, hy, hnode⟩ := h.held u b hb
    obtain rfl := Option.some.inj (hx.symm.trans hy)
    exact hnode
  · obtain ⟨y, hy, hnode⟩ := h.held u a (hstep.others u a hu ha)
    exact ⟨y, (hothers u hu).trans hy, hnode⟩

/-- A consumer that accounts for its node and for what it has taken. -/
theorem NoLeak.consumer {s : CondStack} (h : NoLeak s) {i : ℕ} {c c' : Consumer} (m' : Memory)
    (hc : s.consumers[i]? = some c)
    (hstep : Accounts (.consumer i) (.consumer c) (.consumer c') s.memory m')
    (hkeep : ∀ y ∈ s.memory.freed, y ∈ m'.freed)
    (hother : ∀ j x, j ≠ i → (j, x) ∈ m'.consumed → (j, x) ∈ s.memory.consumed)
    (hmine : (∀ x, (i, x) ∈ s.memory.consumed →
        (i, x) ∈ s.memory.freed ∨ c.pc.owns = true ∧ c.item = some x) →
      ∀ x, (i, x) ∈ m'.consumed → (i, x) ∈ m'.freed ∨ c'.pc.owns = true ∧ c'.item = some x) :
    NoLeak { s with memory := m', consumers := s.consumers.set i c' } := by
  have hself : (s.consumers.set i c')[i]? = some c' :=
    List.getElem?_set_self (List.getElem?_eq_some_iff.mp hc).1
  refine h.move (t := .consumer i) (.consumer c) (.consumer c')
    (congrArg (Option.map Local.consumer) hc) (congrArg (Option.map Local.consumer) hself)
    (fun u hu => thread_setConsumer hu c' m') hstep fun j y hy => ?_
  by_cases hj : j = i
  · subst hj
    refine (hmine (fun x hx => ?_) y hy).imp_right fun hheld => ⟨c', hself, hheld⟩
    refine (h.freed j x hx).imp_right ?_
    rintro ⟨d, hd, hheld⟩
    obtain rfl := Option.some.inj (hc.symm.trans hd)
    exact hheld
  · rcases h.freed j y (hother j y hj hy) with hfreed | ⟨d, hd, hheld⟩
    · exact .inl (hkeep _ hfreed)
    · exact .inr ⟨d, (List.getElem?_set_ne (Ne.symm hj)).trans hd, hheld⟩

/-- A producer that accounts for its node. -/
theorem NoLeak.producer {s : CondStack} (h : NoLeak s) {i : ℕ} {p p' : Producer} (m' : Memory)
    (hp : s.producers[i]? = some p)
    (hstep : Accounts (.producer i) (.producer p) (.producer p') s.memory m')
    (hconsumed : m'.consumed = s.memory.consumed) (hfreed : m'.freed = s.memory.freed) :
    NoLeak { s with memory := m', producers := s.producers.set i p' } := by
  have hself : (s.producers.set i p')[i]? = some p' :=
    List.getElem?_set_self (List.getElem?_eq_some_iff.mp hp).1
  refine h.move (t := .producer i) (.producer p) (.producer p')
    (congrArg (Option.map Local.producer) hp) (congrArg (Option.map Local.producer) hself)
    (fun u hu => thread_setProducer hu p' m') hstep fun j y hy => ?_
  simp only [hconsumed, hfreed] at hy ⊢
  exact h.freed j y hy

/-- A consumer that is woken has no node. -/
theorem NoLeak.wake {s s' : CondStack} (h : NoLeak s) {i : ℕ} (hwake : wake i s = some s') :
    NoLeak s' := by
  obtain ⟨c, hc, hpc, rfl⟩ := wake_eq_some hwake
  refine h.consumer s.memory hc
    (.of_eq (fun a node ha => ⟨node, ha⟩) rfl (by simp [Local.node, hpc, ConsumerPc.owns]))
    (fun y hy => hy) (fun j x _ hx => hx) fun hold x hx => .inl ?_
  simpa [hpc, ConsumerPc.owns] using hold x hx

/-- So has a producer that signals. -/
theorem NoLeak.signal {s s' : CondStack} (h : NoLeak s) {i : ℕ} {p : Producer} {woken : Option ℕ}
    (hp : s.producers[i]? = some p) (hpc : p.pc = .signal)
    (hstep : signal woken { s with producers := s.producers.set i { p with pc := .sleep } } =
      some s') : NoLeak s' := by
  have hsent : NoLeak { s with producers := s.producers.set i { p with pc := .sleep } } :=
    h.producer s.memory hp
      (.of_eq (fun a node ha => ⟨node, ha⟩) rfl (by simp [Local.node, hpc, ProducerPc.owns]))
      rfl rfl
  unfold CondStack.signal at hstep
  cases woken with
  | some j => exact hsent.wake hstep
  | none =>
    simp only at hstep
    split at hstep
    · cases hstep
    · obtain rfl := Option.some.inj hstep
      exact hsent

theorem NoLeak.step {s s' : CondStack} (h : NoLeak s) (hinv : Inv s) {l : Label}
    (hstep : step s l = some s') : NoLeak s' := by
  unfold CondStack.step at hstep
  cases l with
  | consumer i =>
    simp only at hstep
    split at hstep
    · next c hc =>
      obtain ⟨r, hr, rfl⟩ := Option.map_eq_some_iff.mp hstep
      obtain ⟨hkeep, hother, hmine⟩ := stepConsumer_freed hr
      exact h.consumer r.2 hc (stepConsumer_accounts (hinv.consumer_knows hc) hr) hkeep hother hmine
    · cases hstep
  | producer i choice =>
    simp only at hstep
    split at hstep
    · next p hp =>
      obtain ⟨r, hr, rfl⟩ := Option.map_eq_some_iff.mp hstep
      obtain ⟨haccounts, hconsumed, hfreed⟩ := stepProducer_accounts hr
      exact h.producer r.2 hp haccounts hconsumed hfreed
    · cases hstep
  | signal i woken =>
    simp only at hstep
    split at hstep
    · next p hp =>
      split at hstep
      · next hpc => exact h.signal hp hpc hstep
      · cases hstep
    · cases hstep
  | spurious i => exact h.wake hstep

theorem noLeak_of_run {consumers producers : ℕ} {h : List (Event CondStack Label)} {s : CondStack}
    (hrun : (program consumers producers).Run h s) : NoLeak s := by
  have hboth : Inv s ∧ NoLeak s := by
    refine hrun.invariant (I := fun s => Inv s ∧ NoLeak s) ?_ ?_
    · rintro s rfl
      exact ⟨start_inv consumers producers, ⟨nofun, nofun, nofun⟩⟩
    · rintro s l s' - hstep ⟨hinv, hleak⟩
      exact ⟨hinv.step hstep, hleak.step hinv hstep⟩
  exact hboth.2

/-- What is allocated: the pending items, and a node for each thread that holds one. -/
theorem NoLeak.allocated_iff {s : CondStack} (h : NoLeak s) (hinv : Inv s) (a : ℕ) :
    (∃ node, s.memory.heap a = some node) ↔
      a ∈ s.memory.pending.map Item.address ∨ ∃ t x, thread s t = some x ∧ x.node = some a := by
  rw [← hinv.memory.lifo, ← hinv.memory.listed]
  constructor
  · rintro ⟨node, hnode⟩
    cases howner : s.memory.owner a with
    | nobody => exact absurd howner (h.owned a node hnode)
    | list => exact .inl rfl
    | thread t => exact .inr ⟨t, h.held t a howner⟩
  · have hthere : s.memory.owner a ≠ .nobody → ∃ node, s.memory.heap a = some node :=
      fun hne => (hinv.memory.allocated a hne).2
    rintro (hlist | ⟨t, x, hx, hnode⟩)
    · exact hthere (by rw [hlist]; exact nofun)
    · refine hthere ?_
      cases t with
      | consumer i =>
        obtain ⟨c, hc, rfl⟩ := Option.map_eq_some_iff.mp hx
        simp only [Local.node, Option.ite_none_right_eq_some, Option.some.injEq] at hnode
        obtain ⟨howns, rfl⟩ := hnode
        rw [(hinv.consumers i c hc howns).1]
        exact nofun
      | producer i =>
        obtain ⟨p, hp, rfl⟩ := Option.map_eq_some_iff.mp hx
        simp only [Local.node, Option.ite_none_right_eq_some, Option.some.injEq] at hnode
        obtain ⟨howns, rfl⟩ := hnode
        rw [hinv.producers i p hp howns]
        exact nofun

/-! ## The budget -/

/-- The statements a consumer has left until it is blocked or takes an item. -/
def Consumer.budget (c : Consumer) : ℕ :=
  match c.pc with
  | .print => 7
  | .unlock => 6
  | .free => 5
  | .sleep => 4
  | .lock | .woken => 3
  | .test => 2
  | .wait | .take => 1
  | .blocked | .advance => 0

/-- The statements a producer has left until it would begin a new item; its signal also pays for
the consumer it wakes. -/
def Producer.budget (p : Producer) : ℕ :=
  match p.pc with
  | .setNum => 19
  | .print => 18
  | .lock => 17
  | .link => 16
  | .publish => 15
  | .unlock => 6
  | .signal => 5
  | .sleep => 1
  | .malloc => 0

/-- The statements left until all threads have come to rest, at most. -/
def budget (s : CondStack) : ℕ :=
  (s.consumers.map Consumer.budget).sum + (s.producers.map Producer.budget).sum +
    8 * s.memory.stack.length

theorem stepConsumer_budget {i : ℕ} {c c' : Consumer} {m m' : Memory} (hm : MemInv m)
    (hknows : c.pc.locks = true → knows (.consumer c) m)
    (hstep : stepConsumer i c m = some (c', m')) :
    c'.budget + 8 * m'.stack.length < c.budget + 8 * m.stack.length := by
  unfold stepConsumer at hstep
  cases hpc : c.pc <;> rw [hpc] at hstep
  case lock | woken =>
    simp only at hstep
    split at hstep
    · obtain ⟨rfl, rfl⟩ := Prod.mk.inj (Option.some.inj hstep)
      simp [Consumer.budget, hpc]
    · cases hstep
  case test =>
    obtain ⟨rfl, rfl⟩ := Prod.mk.inj (Option.some.inj hstep)
    by_cases hhead : m.head = 0
    · simp [Consumer.budget, hpc, hhead]
    · simp [Consumer.budget, hpc, hhead]
  case wait | take | unlock | sleep =>
    obtain ⟨rfl, rfl⟩ := Prod.mk.inj (Option.some.inj hstep)
    simp [Consumer.budget, hpc]
  case blocked => cases hstep
  case advance =>
    obtain ⟨hhead, -⟩ := (hknows (by rw [hpc]; rfl)).2.2 hpc
    obtain ⟨node, x, rest, hnode, hstack, -⟩ := hm.pop hhead i
    rw [hnode, Option.map_some, hstack] at hstep
    obtain ⟨rfl, rfl⟩ := Prod.mk.inj (Option.some.inj hstep)
    simp only [Consumer.budget, hpc, hstack, List.tail_cons, List.length_cons]
    omega
  case print | free =>
    obtain ⟨node, -, heq⟩ := Option.map_eq_some_iff.mp hstep
    obtain ⟨rfl, rfl⟩ := Prod.mk.inj heq
    simp [Consumer.budget, hpc]

theorem stepProducer_budget {i : ℕ} {choice : Choice} {p p' : Producer} {m m' : Memory}
    (hstep : stepProducer i choice p m = some (p', m')) (hbusy : p.pc ≠ .malloc) :
    p'.budget + 8 * m'.stack.length < p.budget + 8 * m.stack.length := by
  unfold stepProducer at hstep
  cases hpc : p.pc <;> rw [hpc] at hstep
  case malloc => exact absurd hpc hbusy
  case setNum | print | link =>
    obtain ⟨node, -, heq⟩ := Option.map_eq_some_iff.mp hstep
    obtain ⟨rfl, rfl⟩ := Prod.mk.inj heq
    simp [Producer.budget, hpc]
  case lock =>
    simp only at hstep
    split at hstep
    · obtain ⟨rfl, rfl⟩ := Prod.mk.inj (Option.some.inj hstep)
      simp [Producer.budget, hpc]
    · cases hstep
  case publish =>
    obtain ⟨rfl, rfl⟩ := Prod.mk.inj (Option.some.inj hstep)
    simp only [Producer.budget, hpc, List.length_cons]
    omega
  case unlock | sleep =>
    obtain ⟨rfl, rfl⟩ := Prod.mk.inj (Option.some.inj hstep)
    simp [Producer.budget, hpc]
  case signal => cases hstep

/-- The threads' steps, without wake-ups that nobody sent and without the beginning of a new
item. -/
def isFinishing (e : Event CondStack Label) : Bool :=
  match e.label with
  | .consumer _ | .signal _ _ => true
  | .producer i _ => (e.pre.producers[i]?).any (·.pc ≠ .malloc)
  | .spurious _ => false

theorem budget_wake {s s' : CondStack} {i : ℕ} (hwake : wake i s = some s') :
    s'.budget = s.budget + 3 := by
  obtain ⟨c, hc, hpc, rfl⟩ := wake_eq_some hwake
  have hsum := sum_map_set_add (f := Consumer.budget) (b := { c with pc := .woken }) hc
  have hold : c.budget = 0 := by rw [Consumer.budget, hpc]
  have hnew : Consumer.budget { c with pc := .woken } = 3 := rfl
  simp only [budget]
  omega

/-- Every one of these steps spends from the budget. -/
theorem Inv.budget_lt {s s' : CondStack} (hinv : Inv s) {l : Label}
    (hstep : CondStack.step s l = some s') (hfinishing : isFinishing ⟨s, l, s'⟩ = true) :
    s'.budget < s.budget := by
  unfold CondStack.step at hstep
  cases l with
  | consumer i =>
    simp only at hstep
    split at hstep
    · next c hc =>
      obtain ⟨⟨c', m'⟩, hr, rfl⟩ := Option.map_eq_some_iff.mp hstep
      have hlt := stepConsumer_budget hinv.memory (hinv.consumer_knows hc) hr
      have hsum := sum_map_set_add (f := Consumer.budget) (b := c') hc
      simp only [budget]
      omega
    · cases hstep
  | producer i choice =>
    simp only at hstep
    split at hstep
    · next p hp =>
      obtain ⟨⟨p', m'⟩, hr, rfl⟩ := Option.map_eq_some_iff.mp hstep
      have hlt := stepProducer_budget hr (by simpa [isFinishing, hp] using hfinishing)
      have hsum := sum_map_set_add (f := Producer.budget) (b := p') hp
      simp only [budget]
      omega
    · cases hstep
  | signal i woken =>
    simp only at hstep
    split at hstep
    · next p hp =>
      split at hstep
      · next hpc =>
        have hsum := sum_map_set_add (f := Producer.budget) (b := { p with pc := .sleep }) hp
        have hold : p.budget = 5 := by rw [Producer.budget, hpc]
        have hnew : Producer.budget { p with pc := .sleep } = 1 := rfl
        have hsent : budget { s with producers := s.producers.set i { p with pc := .sleep } } + 4 =
            s.budget := by
          simp only [budget]
          omega
        cases woken with
        | some j =>
          have hwoken := budget_wake hstep
          omega
        | none =>
          simp only [CondStack.signal] at hstep
          split at hstep
          · cases hstep
          · obtain rfl := Option.some.inj hstep
            omega
      · cases hstep
    · cases hstep
  | spurious i => cases hfinishing

/-! ## Where no statement is left -/

/-- A consumer that cannot go on is blocked or waits for the mutex. -/
theorem Inv.consumer_stuck {s : CondStack} (hinv : Inv s) {i : ℕ} {c : Consumer}
    (hc : s.consumers[i]? = some c) (hstuck : CondStack.stepConsumer i c s.memory = none) :
    c.pc = .blocked ∨ c.pc.locks = false ∧ s.memory.mutex ≠ none := by
  have hthere : c.pc.owns = true → ∃ node, s.memory.heap c.mp = some node := by
    intro howns
    refine (hinv.memory.allocated c.mp ?_).2
    rw [(hinv.consumers i c hc howns).1]
    exact nofun
  unfold CondStack.stepConsumer at hstuck
  cases hpc : c.pc <;> rw [hpc] at hstuck
  case lock | woken =>
    simp only at hstuck
    split at hstuck
    · cases hstuck
    · next hheld => exact .inr ⟨rfl, hheld⟩
  case test | wait | take | unlock | sleep => cases hstuck
  case blocked => exact .inl rfl
  case advance =>
    obtain ⟨hhead, -⟩ := (hinv.consumer_knows hc (by rw [hpc]; rfl)).2.2 hpc
    obtain ⟨node, -, hnode, -⟩ := hinv.memory.linked.uncons hhead
    rw [hnode] at hstuck
    cases hstuck
  case print | free =>
    obtain ⟨node, hnode⟩ := hthere (by rw [hpc]; rfl)
    rw [hnode] at hstuck
    cases hstuck

/-- A producer that cannot go on is about to signal or waits for the mutex. -/
theorem Inv.producer_stuck {s : CondStack} (hinv : Inv s) {i : ℕ} {p : Producer} {choice : Choice}
    (hp : s.producers[i]? = some p) (hbusy : p.pc ≠ .malloc)
    (hstuck : CondStack.stepProducer i choice p s.memory = none) :
    p.pc = .signal ∨ p.pc.locks = false ∧ s.memory.mutex ≠ none := by
  have hthere : p.pc.owns = true → ∃ node, s.memory.heap p.mp = some node := by
    intro howns
    refine (hinv.memory.allocated p.mp ?_).2
    rw [hinv.producers i p hp howns]
    exact nofun
  unfold CondStack.stepProducer at hstuck
  cases hpc : p.pc <;> rw [hpc] at hstuck
  case malloc => exact absurd hpc hbusy
  case setNum | print | link =>
    obtain ⟨node, hnode⟩ := hthere (by rw [hpc]; rfl)
    rw [hnode] at hstuck
    cases hstuck
  case lock =>
    simp only at hstuck
    split at hstuck
    · cases hstuck
    · next hheld => exact .inr ⟨rfl, hheld⟩
  case publish | unlock | sleep => cases hstuck
  case signal => exact .inl rfl

/-- A signal can always be sent. -/
theorem exists_signal (s : CondStack) : ∃ woken s', signal woken s = some s' := by
  by_cases hblocked : Blocked s
  · obtain ⟨c, hmem, hpc⟩ := hblocked
    obtain ⟨j, hj⟩ := List.mem_iff_getElem?.mp hmem
    refine ⟨some j, { s with consumers := s.consumers.set j { c with pc := .woken } }, ?_⟩
    simp only [signal, wake, hj, hpc, if_true]
  · refine ⟨none, s, if_neg fun hany => hblocked ?_⟩
    obtain ⟨c, hmem, hpc⟩ := List.any_eq_true.mp hany
    exact ⟨c, hmem, of_decide_eq_true hpc⟩

/-- All threads have come to rest: the consumers are blocked, the producers are about to begin,
and of all the items that were pushed nothing is left. -/
structure AtRest (s : CondStack) : Prop where
  consumers : ∀ c ∈ s.consumers, c.pc = .blocked
  producers : ∀ p ∈ s.producers, p.pc = .malloc
  unlocked : s.memory.mutex = none
  head : s.memory.head = 0
  taken : s.memory.consumedItems.Perm s.memory.pushed
  freed : s.memory.freed.Perm s.memory.consumed
  heap : ∀ a, s.memory.heap a = none

/-- Nobody has the mutex when no thread can go on. -/
theorem Inv.unlocked {s : CondStack} (hinv : Inv s)
    (hconsumer : ∀ (i : ℕ) (c : Consumer), s.consumers[i]? = some c →
      c.pc = .blocked ∨ c.pc.locks = false ∧ s.memory.mutex ≠ none)
    (hproducer : ∀ (i : ℕ) (p : Producer), s.producers[i]? = some p → p.pc ≠ .malloc →
      p.pc.locks = false ∧ s.memory.mutex ≠ none) : s.memory.mutex = none := by
  by_contra hheld
  obtain ⟨t, ht⟩ := Option.ne_none_iff_exists'.mp hheld
  obtain ⟨x, hx, hholds⟩ := (hinv.mutex.owner_iff t).mp ht
  cases t with
  | consumer i =>
    obtain ⟨c, hc, rfl⟩ := Option.map_eq_some_iff.mp hx
    have hlocks : c.pc.locks = true := hholds
    rcases hconsumer i c hc with hpc | ⟨hout, -⟩
    · rw [hpc] at hlocks
      cases hlocks
    · rw [hout] at hlocks
      cases hlocks
  | producer i =>
    obtain ⟨p, hp, rfl⟩ := Option.map_eq_some_iff.mp hx
    have hlocks : p.pc.locks = true := hholds
    by_cases hpc : p.pc = .malloc
    · rw [hpc] at hlocks
      cases hlocks
    · rw [(hproducer i p hp hpc).1] at hlocks
      cases hlocks

/-- Where all consumers are blocked and all producers are about to begin, nothing is left. -/
theorem NoLeak.atRest {s : CondStack} (hleak : NoLeak s) (hinv : Inv s)
    (hpos : 0 < s.consumers.length) (hunlocked : s.memory.mutex = none)
    (hconsumers : ∀ c ∈ s.consumers, c.pc = .blocked)
    (hproducers : ∀ p ∈ s.producers, p.pc = .malloc) : AtRest s := by
  have hblocked : Blocked s := ⟨s.consumers[0], List.getElem_mem hpos,
    hconsumers _ (List.getElem_mem hpos)⟩
  have hlooking : s.consumers.countP looking = 0 :=
    List.countP_eq_zero.mpr fun c hc => by simp [looking, hconsumers c hc]
  have hunsignalled : s.producers.countP unsignalled = 0 :=
    List.countP_eq_zero.mpr fun p hp => by simp [unsignalled, hproducers p hp]
  have hstack : s.memory.stack = [] := by
    have hwakes := hinv.wakes hblocked
    rw [hlooking, hunsignalled] at hwakes
    exact List.eq_nil_of_length_eq_zero (Nat.le_zero.mp hwakes)
  have hpending : s.memory.pending = [] := hinv.memory.lifo ▸ hstack
  have hpushed : s.memory.pushed.Nodup := by
    have hids : (s.memory.pushed.map Item.id).Nodup := by
      rw [hinv.memory.ids]
      exact List.nodup_range
    exact hids.of_map _
  refine ⟨hconsumers, hproducers, hunlocked, ?_, ?_, ?_, fun a => ?_⟩
  · rw [hinv.memory.linked.head_eq_zero_iff, hstack]
    rfl
  · rw [List.perm_ext_iff_of_nodup hinv.memory.once hpushed]
    refine fun x => ⟨hinv.memory.consumed x, fun hx => ?_⟩
    by_contra hnot
    have hmem := mem_pending.mpr ⟨hx, hnot⟩
    rw [hpending] at hmem
    cases hmem
  · rw [List.perm_ext_iff_of_nodup (hinv.memory.freed_once.of_map _)
      (hinv.memory.once.of_map _)]
    rintro ⟨i, x⟩
    refine ⟨hinv.memory.freed _, fun hx => ?_⟩
    rcases hleak.freed i x hx with hfreed | ⟨c, hc, howns, -⟩
    · exact hfreed
    · rw [hconsumers c (List.mem_of_getElem? hc)] at howns
      cases howns
  · by_contra hne
    rcases (hleak.allocated_iff hinv a).mp (Option.ne_none_iff_exists'.mp hne) with
      hmem | ⟨t, x, hx, hnode⟩
    · rw [hpending] at hmem
      cases hmem
    · cases t with
      | consumer i =>
        obtain ⟨c, hc, rfl⟩ := Option.map_eq_some_iff.mp hx
        simp [Local.node, hconsumers c (List.mem_of_getElem? hc), ConsumerPc.owns] at hnode
      | producer i =>
        obtain ⟨p, hp, rfl⟩ := Option.map_eq_some_iff.mp hx
        simp [Local.node, hproducers p (List.mem_of_getElem? hp), ProducerPc.owns] at hnode

/-- When no statement is left but to begin a new item, all threads have come to rest. -/
theorem NoLeak.atRest_of_stuck {s : CondStack} (hleak : NoLeak s) (hinv : Inv s)
    (hpos : 0 < s.consumers.length)
    (hstuck : ∀ l s', CondStack.step s l = some s' → isFinishing ⟨s, l, s'⟩ ≠ true) :
    AtRest s := by
  have hconsumer : ∀ (i : ℕ) (c : Consumer), s.consumers[i]? = some c →
      c.pc = .blocked ∨ c.pc.locks = false ∧ s.memory.mutex ≠ none := by
    intro i c hc
    refine hinv.consumer_stuck hc (Option.eq_none_iff_forall_ne_some.mpr fun r hr => ?_)
    have hstep : CondStack.step s (.consumer i) =
        some { s with memory := r.2, consumers := s.consumers.set i r.1 } := by
      simp only [CondStack.step, hc, hr, Option.map_some]
    exact hstuck _ _ hstep rfl
  have hproducer : ∀ (i : ℕ) (p : Producer), s.producers[i]? = some p → p.pc ≠ .malloc →
      p.pc.locks = false ∧ s.memory.mutex ≠ none := by
    intro i p hp hbusy
    have hnone : CondStack.stepProducer i ⟨0, ⟨0, 0⟩, 0⟩ p s.memory = none := by
      refine Option.eq_none_iff_forall_ne_some.mpr fun r hr => ?_
      have hstep : CondStack.step s (.producer i ⟨0, ⟨0, 0⟩, 0⟩) =
          some { s with memory := r.2, producers := s.producers.set i r.1 } := by
        simp only [CondStack.step, hp, hr, Option.map_some]
      exact hstuck _ _ hstep (by simp [isFinishing, hp, hbusy])
    rcases hinv.producer_stuck hp hbusy hnone with hpc | hwaits
    · obtain ⟨woken, s', hsignal⟩ :=
        exists_signal { s with producers := s.producers.set i { p with pc := .sleep } }
      exact absurd rfl (hstuck (.signal i woken) s'
        (by simp only [CondStack.step, hp, hpc, if_true, hsignal]))
    · exact hwaits
  have hunlocked := hinv.unlocked hconsumer hproducer
  refine hleak.atRest hinv hpos hunlocked (fun c hc => ?_) fun p hp => ?_
  · obtain ⟨i, hi⟩ := List.mem_iff_getElem?.mp hc
    exact (hconsumer i c hi).resolve_right fun hwaits => hwaits.2 hunlocked
  · obtain ⟨i, hi⟩ := List.mem_iff_getElem?.mp hp
    by_contra hbusy
    exact (hproducer i p hi hbusy).2 hunlocked

theorem step_length {s s' : CondStack} {l : Label} (hstep : step s l = some s') :
    s'.consumers.length = s.consumers.length := by
  have hwoken : ∀ {i : ℕ} {s s' : CondStack}, wake i s = some s' →
      s'.consumers.length = s.consumers.length := by
    intro i s s' hwake
    obtain ⟨c, -, -, rfl⟩ := wake_eq_some hwake
    exact List.length_set
  unfold step at hstep
  cases l with
  | consumer i | producer i choice =>
    simp only at hstep
    split at hstep
    · obtain ⟨r, -, rfl⟩ := Option.map_eq_some_iff.mp hstep
      simp
    · cases hstep
  | signal i woken =>
    simp only at hstep
    split at hstep
    · split at hstep
      · cases woken with
        | some j =>
          have hsame := hwoken hstep
          exact hsame
        | none =>
          simp only [signal] at hstep
          split at hstep
          · cases hstep
          · obtain rfl := Option.some.inj hstep
            rfl
      · cases hstep
    · cases hstep
  | spurious i => exact hwoken hstep

/-- **Nothing is lost.**  In every state of every run the nodes that are allocated are those of
the pending items and those that a thread holds.  With one consumer at least, from every such
state the steps that begin no new item are bounded in number, whatever their order, if no waiting
consumer is woken without a signal; and where none is left every item that was pushed has been
taken once and freed by whoever took it, and no node is allocated. -/
theorem cond_stack_drains (consumers producers : ℕ) (h : List (Event CondStack Label))
    (s : CondStack) (hrun : (program consumers producers).Run h s) :
    (∀ a, (∃ node, s.memory.heap a = some node) ↔
      a ∈ s.memory.pending.map Item.address ∨ ∃ t x, thread s t = some x ∧ x.node = some a) ∧
    (0 < consumers → (program consumers producers).Completes (isFinishing · = true)
      (fun _ s' => AtRest s') s) := by
  have hinv := inv_of_run hrun
  have hleak := noLeak_of_run hrun
  have hlength : s.consumers.length = consumers := by
    refine hrun.invariant (I := fun s => s.consumers.length = consumers) ?_ ?_
    · rintro s rfl
      exact List.length_replicate
    · intro s l s' _ hstep hlength
      exact (step_length hstep).trans hlength
  refine ⟨hleak.allocated_iff hinv, fun hpos => ?_⟩
  refine System.completes_of_rank budget
    (I := fun s => Inv s ∧ NoLeak s ∧ 0 < s.consumers.length) ?_ ?_ ?_
    ⟨hinv, hleak, hlength ▸ hpos⟩
  · rintro s l s' hstep - ⟨hinv, hleak, hpos⟩
    exact ⟨hinv.step hstep, hleak.step hinv hstep, (step_length hstep).symm ▸ hpos⟩
  · rintro s l s' hstep hfinishing ⟨hinv, -, -⟩
    exact hinv.budget_lt hstep hfinishing
  · rintro h' s' - ⟨hinv, hleak, hpos⟩ hstuck
    exact hleak.atRest_of_stuck hinv hpos hstuck

/-- Two consumers share the items of a producer that has begun its second. -/
theorem cond_stack_drains_two_consumers : ∃ h s, (program 2 1).Run h s ∧
    s.memory.freed = [(0, ⟨0, 16, 8⟩)] ∧
    (program 2 1).Completes (isFinishing · = true) (fun _ s' => AtRest s') s := by
  obtain ⟨h, s, hrun, hP⟩ := System.exists_run_of_exec (start 2 1) step
    (List.replicate 3 (.consumer 0) ++ List.replicate 7 (.producer 0 ⟨16, ⟨0, 0⟩, 7⟩) ++
      [.signal 0 (some 0)] ++ List.replicate 7 (.consumer 0) ++
      List.replicate 4 (.producer 0 ⟨24, ⟨0, 0⟩, 9⟩))
    (fun _ s => decide (s.memory.freed = [(0, ⟨0, 16, 8⟩)])) (by decide +kernel)
  exact ⟨h, s, hrun, of_decide_eq_true hP, (cond_stack_drains 2 1 h s hrun).2 (by decide)⟩

end LinuxExercise.ThreadSync.CondStack
