import LinuxExercise.Framework.LinkedList
import LinuxExercise.Framework.Monitor
import LinuxExercise.Framework.System
import LinuxExercise.Framework.Threads

/-!
# The stack of the condition-variable program (`010_thread_sync/04thread_sync_pthread_cond.c`)

Producers push nodes onto the list at `head` and signal `g_cond` after they have released
`g_mutex`; consumers wait on `g_cond` while the list is empty, pop a node, and free it after
they have released the mutex.  Every statement is a step, `pthread_cond_wait` is the step that
blocks and releases the mutex and, once the thread is woken, the one that takes it again.

The heap maps the addresses that are allocated to nodes.  An access to an address that is not
allocated has no step, so that a thread at such an access would be stuck; that this never
happens is part of what is proved.  `owner`, `stack`, `pushed`, `consumed` and `freed` are
histories.
-/

namespace LinuxExercise.ThreadSync

namespace CondStack

/-! ## The memory -/

/-- `struct msg`. -/
structure Msg where
  next : ℕ
  num : ℕ
  deriving DecidableEq, Repr

/-- A thread. -/
inductive Tid
  | consumer (i : ℕ)
  | producer (i : ℕ)
  deriving DecidableEq, Repr

/-- History: an item that was pushed, numbered in the order of the pushes. -/
structure Item where
  id : ℕ
  address : ℕ
  num : ℕ
  deriving DecidableEq, Repr

/-- History: what a node is part of. -/
inductive Owner
  | nobody
  | list
  | thread (t : Tid)
  deriving DecidableEq, Repr

/-- The heap and the global variables. -/
structure Memory where
  heap : ℕ → Option Msg
  head : ℕ
  /-- The thread that has `g_mutex` locked. -/
  mutex : Option Tid
  owner : ℕ → Owner
  /-- The items in the list, the last pushed first. -/
  stack : List Item
  pushed : List Item
  /-- Which consumer took which item from the list. -/
  consumed : List (ℕ × Item)
  /-- Which consumer freed which item. -/
  freed : List (ℕ × Item)

/-! ## The consumer -/

/-- Where `threadFunc_Consumer` is. -/
inductive ConsumerPc
  /-- `pthread_mutex_lock(&g_mutex)`. -/
  | lock
  /-- `while (!head)`. -/
  | test
  /-- `pthread_cond_wait(&g_cond, &g_mutex)`. -/
  | wait
  /-- Blocked in it. -/
  | blocked
  /-- Woken, about to take the mutex again. -/
  | woken
  /-- `mp = head`. -/
  | take
  /-- `head = head->next`. -/
  | advance
  /-- `printf("consumer:%d\n", mp->num)`. -/
  | print
  /-- `pthread_mutex_unlock(&g_mutex)`. -/
  | unlock
  /-- `free(mp)`. -/
  | free
  | sleep
  deriving DecidableEq, Repr

structure Consumer where
  pc : ConsumerPc
  mp : ℕ
  /-- History: the item it took last. -/
  item : Option Item
  deriving DecidableEq, Repr

/-- A step of consumer `i`. -/
def stepConsumer (i : ℕ) (c : Consumer) (m : Memory) : Option (Consumer × Memory) :=
  match c.pc with
  | .lock | .woken =>
    if m.mutex = none then
      some ({ c with pc := .test }, { m with mutex := some (.consumer i) })
    else none
  | .test => some ({ c with pc := if m.head = 0 then .wait else .take }, m)
  | .wait => some ({ c with pc := .blocked }, { m with mutex := none })
  | .blocked => none
  | .take => some ({ c with pc := .advance, mp := m.head }, m)
  | .advance =>
    (m.heap m.head).map fun node =>
      ({ c with pc := .print, item := m.stack.head? },
        { m with
          head := node.next
          owner := Function.update m.owner m.head (.thread (.consumer i))
          stack := m.stack.tail
          consumed := m.consumed ++ m.stack.head?.toList.map fun x => (i, x) })
  | .print => (m.heap c.mp).map fun _ => ({ c with pc := .unlock }, m)
  | .unlock => some ({ c with pc := .free }, { m with mutex := none })
  | .free =>
    (m.heap c.mp).map fun _ =>
      ({ c with pc := .sleep },
        { m with
          heap := Function.update m.heap c.mp none
          owner := Function.update m.owner c.mp .nobody
          freed := m.freed ++ c.item.toList.map fun x => (i, x) })
  | .sleep => some ({ c with pc := .lock }, m)

/-! ## The producer -/

/-- Where `threadFunc_Producer` is. -/
inductive ProducerPc
  /-- `mp = malloc(sizeof(struct msg))`. -/
  | malloc
  /-- `mp->num = rand() % 1000 + 1`. -/
  | setNum
  /-- `printf("Producer:%d\n", mp->num)`. -/
  | print
  /-- `pthread_mutex_lock(&g_mutex)`. -/
  | lock
  /-- `mp->next = head`. -/
  | link
  /-- `head = mp`. -/
  | publish
  /-- `pthread_mutex_unlock(&g_mutex)`. -/
  | unlock
  /-- `pthread_cond_signal(&g_cond)`. -/
  | signal
  | sleep
  deriving DecidableEq, Repr

structure Producer where
  pc : ProducerPc
  mp : ℕ
  deriving DecidableEq, Repr

/-- What `malloc` and `rand` return: an address with what the memory there contains, a
number. -/
structure Choice where
  address : ℕ
  garbage : Msg
  rand : ℕ
  deriving DecidableEq, Repr

/-- The item that a producer pushes. -/
def newItem (p : Producer) (m : Memory) : Item :=
  ⟨m.pushed.length, p.mp, (m.heap p.mp).elim 0 Msg.num⟩

/-- A step of producer `i` other than its signal. -/
def stepProducer (i : ℕ) (choice : Choice) (p : Producer) (m : Memory) :
    Option (Producer × Memory) :=
  match p.pc with
  | .malloc =>
    if choice.address ≠ 0 ∧ m.heap choice.address = none then
      some (⟨.setNum, choice.address⟩,
        { m with
          heap := Function.update m.heap choice.address (some choice.garbage)
          owner := Function.update m.owner choice.address (.thread (.producer i)) })
    else none
  | .setNum =>
    (m.heap p.mp).map fun node =>
      ({ p with pc := .print },
        { m with
          heap := Function.update m.heap p.mp (some { node with num := choice.rand % 1000 + 1 }) })
  | .print => (m.heap p.mp).map fun _ => ({ p with pc := .lock }, m)
  | .lock =>
    if m.mutex = none then
      some ({ p with pc := .link }, { m with mutex := some (.producer i) })
    else none
  | .link =>
    (m.heap p.mp).map fun node =>
      ({ p with pc := .publish },
        { m with heap := Function.update m.heap p.mp (some { node with next := m.head }) })
  | .publish =>
    some ({ p with pc := .unlock },
      { m with
        head := p.mp
        owner := Function.update m.owner p.mp .list
        stack := newItem p m :: m.stack
        pushed := m.pushed ++ [newItem p m] })
  | .unlock => some ({ p with pc := .signal }, { m with mutex := none })
  | .signal => none
  | .sleep => some ({ p with pc := .malloc }, m)

end CondStack

/-! ## The program -/

open CondStack in
structure CondStack where
  memory : Memory
  consumers : List Consumer
  producers : List Producer

namespace CondStack

/-- Which thread steps; a signal names the consumer that it wakes. -/
inductive Label
  | consumer (i : ℕ)
  | producer (i : ℕ) (choice : Choice)
  | signal (i : ℕ) (woken : Option ℕ)
  /-- Consumer `i` wakes without having been signalled. -/
  | spurious (i : ℕ)
  deriving DecidableEq, Repr

def start (consumers producers : ℕ) : CondStack where
  memory :=
    { heap := fun _ => none
      head := 0
      mutex := none
      owner := fun _ => .nobody
      stack := []
      pushed := []
      consumed := []
      freed := [] }
  consumers := List.replicate consumers ⟨.lock, 0, none⟩
  producers := List.replicate producers ⟨.malloc, 0⟩

/-- Consumer `i` leaves the queue of `g_cond`. -/
def wake (i : ℕ) (s : CondStack) : Option CondStack :=
  match s.consumers[i]? with
  | some c =>
    if c.pc = .blocked then
      some { s with consumers := s.consumers.set i { c with pc := .woken } }
    else none
  | none => none

/-- `pthread_cond_signal(&g_cond)`: one of the blocked consumers is woken, if there is one. -/
def signal (woken : Option ℕ) (s : CondStack) : Option CondStack :=
  match woken with
  | some i => wake i s
  | none => if s.consumers.any (·.pc = .blocked) then none else some s

def step (s : CondStack) : Label → Option CondStack
  | .consumer i =>
    match s.consumers[i]? with
    | some c =>
      (stepConsumer i c s.memory).map fun r =>
        { s with memory := r.2, consumers := s.consumers.set i r.1 }
    | none => none
  | .producer i choice =>
    match s.producers[i]? with
    | some p =>
      (stepProducer i choice p s.memory).map fun r =>
        { s with memory := r.2, producers := s.producers.set i r.1 }
    | none => none
  | .signal i woken =>
    match s.producers[i]? with
    | some p =>
      if p.pc = .signal then
        signal woken { s with producers := s.producers.set i { p with pc := .sleep } }
      else none
    | none => none
  | .spurious i => wake i s

/-- The interleavings of the threads. -/
def program (consumers producers : ℕ) : System CondStack Label :=
  .ofStep (start consumers producers) step

/-! ## The list and the nodes -/

def Memory.consumedItems (m : Memory) : List Item := m.consumed.map Prod.snd

def Memory.freedItems (m : Memory) : List Item := m.freed.map Prod.snd

/-- The items pushed and not consumed, the last pushed first. -/
def Memory.pending (m : Memory) : List Item :=
  (m.pushed.filter fun x => x ∉ m.consumedItems).reverse

/-- The list at `head` is `stack`, which are the pending items; items are consumed once and
freed once. -/
structure MemInv (m : Memory) : Prop where
  allocated : ∀ a, m.owner a ≠ .nobody → a ≠ 0 ∧ ∃ node, m.heap a = some node
  linked : Linked Msg.next m.heap m.head (m.stack.map Item.address)
  listed : ∀ a, m.owner a = .list ↔ a ∈ m.stack.map Item.address
  distinct : (m.stack.map Item.address).Nodup
  nums : ∀ x ∈ m.stack, (m.heap x.address).map Msg.num = some x.num
  lifo : m.stack = m.pending
  ids : m.pushed.map Item.id = List.range m.pushed.length
  once : m.consumedItems.Nodup
  consumed : ∀ x ∈ m.consumedItems, x ∈ m.pushed
  freed : ∀ y ∈ m.freed, y ∈ m.consumed
  freed_once : m.freedItems.Nodup

theorem start_memInv (consumers producers : ℕ) : MemInv (start consumers producers).memory where
  allocated _ ha := absurd rfl ha
  linked := rfl
  listed a := by simp [start]
  distinct := List.nodup_nil
  nums _ hx := absurd hx List.not_mem_nil
  lifo := rfl
  ids := rfl
  once := List.nodup_nil
  consumed _ hx := absurd hx List.not_mem_nil
  freed _ hy := absurd hy List.not_mem_nil
  freed_once := List.nodup_nil

theorem MemInv.setMutex {m : Memory} (h : MemInv m) (o : Option Tid) :
    MemInv { m with mutex := o } :=
  ⟨h.allocated, h.linked, h.listed, h.distinct, h.nums, h.lifo, h.ids, h.once, h.consumed,
    h.freed, h.freed_once⟩

theorem mem_pending {m : Memory} {x : Item} :
    x ∈ m.pending ↔ x ∈ m.pushed ∧ x ∉ m.consumedItems := by
  rw [Memory.pending, List.mem_reverse, List.mem_filter, decide_eq_true_eq]

/-- Whoever consumed an item is known. -/
theorem MemInv.consumer_unique {m : Memory} (h : MemInv m) {i j : ℕ} {x : Item}
    (hi : (i, x) ∈ m.consumed) (hj : (j, x) ∈ m.consumed) : i = j := by
  have hinj := List.inj_on_of_nodup_map h.once
  exact congrArg Prod.fst (hinj hi hj rfl)

/-- A node that a thread owns is not in the list. -/
theorem MemInv.notMem_of_owner {m : Memory} (h : MemInv m) {a : ℕ} {t : Tid}
    (ha : m.owner a = .thread t) : a ∉ m.stack.map Item.address := by
  rw [← h.listed, ha]
  exact nofun

/-- An address that is not allocated is nobody's. -/
theorem MemInv.owner_of_free {m : Memory} (h : MemInv m) {a : ℕ} (ha : m.heap a = none) :
    m.owner a = .nobody := by
  by_contra hown
  obtain ⟨-, node, hnode⟩ := h.allocated a hown
  rw [ha] at hnode
  cases hnode

/-- A change of a node that is not in the list. -/
theorem MemInv.outside {m : Memory} (h : MemInv m) {a : ℕ} (hout : a ∉ m.stack.map Item.address)
    (cell : Option Msg) {o : Owner} (ho : o ≠ .list)
    (hcell : o ≠ .nobody → a ≠ 0 ∧ ∃ node, cell = some node) :
    MemInv { m with
      heap := Function.update m.heap a cell
      owner := Function.update m.owner a o } := by
  have hsame : ∀ b ∈ m.stack.map Item.address, Function.update m.heap a cell b = m.heap b := by
    intro b hb
    have hba : b ≠ a := fun hba => hout (hba ▸ hb)
    exact Function.update_of_ne hba ..
  refine ⟨fun b hb => ?_, ?_, fun b => ?_, h.distinct, fun x hx => ?_, h.lifo, h.ids, h.once,
    h.consumed, h.freed, h.freed_once⟩
  · by_cases hba : b = a
    · subst hba
      simp only [Function.update_self] at hb ⊢
      exact hcell hb
    · simp only [Function.update_of_ne hba] at hb ⊢
      exact h.allocated b hb
  · exact h.linked.frame fun b hb => congrArg _ (hsame b hb)
  · by_cases hba : b = a
    · subst hba
      simp only [Function.update_self]
      exact iff_of_false ho hout
    · simp only [Function.update_of_ne hba]
      exact h.listed b
  · have hx' := hsame _ (List.mem_map_of_mem hx)
    simp only [hx']
    exact h.nums x hx

/-- Writing to a node that a thread owns. -/
theorem MemInv.write {m : Memory} (h : MemInv m) {a : ℕ} {t : Tid} (ha : m.owner a = .thread t)
    (node : Msg) : MemInv { m with heap := Function.update m.heap a (some node) } := by
  have hne : m.owner a ≠ .nobody := by
    rw [ha]
    exact nofun
  have hlist : m.owner a ≠ .list := by
    rw [ha]
    exact nofun
  have hwrite := h.outside (h.notMem_of_owner ha) (some node) hlist fun _ =>
    ⟨(h.allocated a hne).1, node, rfl⟩
  rwa [Function.update_eq_self] at hwrite

/-- A new node. -/
theorem MemInv.alloc {m : Memory} (h : MemInv m) {a : ℕ} (hne : a ≠ 0) (ha : m.heap a = none)
    (node : Msg) (t : Tid) :
    MemInv { m with
      heap := Function.update m.heap a (some node)
      owner := Function.update m.owner a (.thread t) } := by
  have hout : a ∉ m.stack.map Item.address := by
    rw [← h.listed, h.owner_of_free ha]
    exact nofun
  exact h.outside hout _ nofun fun _ => ⟨hne, node, rfl⟩

/-- Freeing a node that a thread owns. -/
theorem MemInv.free {m : Memory} (h : MemInv m) {a i : ℕ} {t : Tid} {x : Item}
    (ha : m.owner a = .thread t) (hx : (i, x) ∈ m.consumed) (hnew : x ∉ m.freedItems) :
    MemInv { m with
      heap := Function.update m.heap a none
      owner := Function.update m.owner a .nobody
      freed := m.freed ++ [(i, x)] } := by
  have hfree := h.outside (h.notMem_of_owner ha) none (o := .nobody) nofun
    fun hne => absurd rfl hne
  refine { hfree with freed := fun y hy => ?_, freed_once := ?_ }
  · rcases List.mem_append.mp hy with hold | hlast
    · exact h.freed y hold
    · rw [List.mem_singleton.mp hlast]
      exact hx
  · rw [Memory.freedItems, List.map_append]
    refine h.freed_once.append (List.nodup_singleton x) fun y hy hyx => ?_
    obtain rfl := List.mem_singleton.mp hyx
    exact hnew hy

/-- Pushing a node that a thread owns and that is linked to the head. -/
theorem MemInv.push {m : Memory} (h : MemInv m) {p : Producer} {t : Tid}
    (hown : m.owner p.mp = .thread t) {node : Msg} (hnode : m.heap p.mp = some node)
    (hnext : node.next = m.head) :
    MemInv { m with
      head := p.mp
      owner := Function.update m.owner p.mp .list
      stack := newItem p m :: m.stack
      pushed := m.pushed ++ [newItem p m] } := by
  have hout := h.notMem_of_owner hown
  have halloc := h.allocated p.mp (by rw [hown]; exact nofun)
  have hid : ∀ x ∈ m.pushed, x ≠ newItem p m := by
    rintro x hx rfl
    have hmem : (newItem p m).id ∈ m.pushed.map Item.id := List.mem_map_of_mem hx
    rw [h.ids, List.mem_range] at hmem
    exact absurd hmem (lt_irrefl _)
  refine ⟨fun b hb => ?_, h.linked.cons halloc.1 hnode hnext, fun b => ?_,
    List.nodup_cons.mpr ⟨hout, h.distinct⟩, fun x hx => ?_, ?_, ?_, h.once, fun x hx => ?_,
    h.freed, h.freed_once⟩
  · by_cases hba : b = p.mp
    · exact hba ▸ halloc
    · simp only [Function.update_of_ne hba] at hb
      exact h.allocated b hb
  · rw [List.map_cons, List.mem_cons]
    by_cases hba : b = p.mp
    · subst hba
      simp only [Function.update_self]
      exact iff_of_true trivial (.inl rfl)
    · simp only [Function.update_of_ne hba]
      rw [h.listed b]
      exact (or_iff_right hba).symm
  · rcases List.mem_cons.mp hx with rfl | hold
    · simp [newItem, hnode]
    · exact h.nums x hold
  · have hnew : newItem p m ∉ m.consumedItems := fun hmem => hid _ (h.consumed _ hmem) rfl
    have hlast : [newItem p m].filter (fun x => x ∉ m.consumedItems) = [newItem p m] :=
      List.filter_eq_self.mpr fun x hx => by simpa [List.mem_singleton.mp hx] using hnew
    show newItem p m :: m.stack =
      ((m.pushed ++ [newItem p m]).filter fun x => x ∉ m.consumedItems).reverse
    rw [List.filter_append, hlast, List.reverse_append, h.lifo]
    rfl
  · rw [List.map_append, h.ids, List.length_append, List.length_singleton, List.range_succ]
    rfl
  · exact List.mem_append_left _ (h.consumed x hx)

/-- Popping the first node. -/
theorem MemInv.pop {m : Memory} (h : MemInv m) (hhead : m.head ≠ 0) (i : ℕ) :
    ∃ node x rest, m.heap m.head = some node ∧ m.stack = x :: rest ∧ x.address = m.head ∧
      x ∉ m.consumedItems ∧
      MemInv { m with
        head := node.next
        owner := Function.update m.owner m.head (.thread (.consumer i))
        stack := rest
        consumed := m.consumed ++ [(i, x)] } := by
  obtain ⟨node, as, hnode, has, hrest⟩ := h.linked.uncons hhead
  obtain ⟨x, rest, hstack, hx, hmap⟩ := List.map_eq_cons_iff.mp has
  have hdistinct := h.distinct
  rw [has, List.nodup_cons] at hdistinct
  have hpending : x ∈ m.pending := by
    rw [← h.lifo, hstack]
    exact List.mem_cons_self
  obtain ⟨hpushed, hnew⟩ := mem_pending.mp hpending
  have hhead' : m.owner m.head = .list := by
    rw [h.listed, has]
    exact List.mem_cons_self
  have hitems : ∀ m' : Memory, m'.consumed = m.consumed ++ [(i, x)] →
      m'.consumedItems = m.consumedItems ++ [x] := by
    intro m' hm'
    simp [Memory.consumedItems, hm']
  refine ⟨node, x, rest, hnode, hstack, hx, hnew, ?_, hmap.symm ▸ hrest, fun b => ?_,
    hmap.symm ▸ hdistinct.2, fun y hy => ?_, ?_, h.ids, ?_, fun y hy => ?_, fun y hy => ?_,
    h.freed_once⟩
  · intro b hb
    by_cases hba : b = m.head
    · exact h.allocated b (by rw [hba, hhead']; exact nofun)
    · simp only [Function.update_of_ne hba] at hb
      exact h.allocated b hb
  · rw [hmap]
    by_cases hba : b = m.head
    · subst hba
      simp only [Function.update_self]
      exact iff_of_false nofun hdistinct.1
    · simp only [Function.update_of_ne hba]
      rw [h.listed b, has, List.mem_cons]
      exact or_iff_right hba
  · exact h.nums y (hstack ▸ List.mem_cons_of_mem x hy)
  · -- What is pending without `x`: `x` is the first, and nowhere else.
    have hx' : x ∉ rest := fun hmem => hdistinct.1 (hx ▸ hmap ▸ List.mem_map_of_mem hmem)
    have hsplit : (m.pushed.filter fun y => y ∉ m.consumedItems ++ [x]) =
        (m.pushed.filter fun y => y ∉ m.consumedItems).filter fun y => y ≠ x := by
      rw [List.filter_filter]
      refine List.filter_congr fun y _ => ?_
      simp [and_comm]
    have hold : (m.pushed.filter fun y => y ∉ m.consumedItems) = rest.reverse ++ [x] := by
      rw [← List.reverse_cons, ← hstack, h.lifo, Memory.pending, List.reverse_reverse]
    have hkeep : rest.reverse.filter (fun y => y ≠ x) = rest.reverse := by
      refine List.filter_eq_self.mpr fun y hy => decide_eq_true ?_
      rintro rfl
      exact hx' (List.mem_reverse.mp hy)
    show rest = (m.pushed.filter fun y => y ∉ Memory.consumedItems _).reverse
    rw [hitems _ rfl, hsplit, hold, List.filter_append, hkeep]
    simp
  · rw [hitems _ rfl]
    refine h.once.append (List.nodup_singleton x) fun y hy hyx => ?_
    obtain rfl := List.mem_singleton.mp hyx
    exact hnew hy
  · rw [hitems _ rfl] at hy
    rcases List.mem_append.mp hy with hold | hlast
    · exact h.consumed y hold
    · rw [List.mem_singleton.mp hlast]
      exact hpushed
  · exact List.mem_append_left _ (h.freed y hy)

end CondStack

end LinuxExercise.ThreadSync
