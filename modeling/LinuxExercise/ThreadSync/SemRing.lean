import LinuxExercise.Framework.Ring

/-!
# The ring of the semaphore program (`010_thread_sync/05thread_sync_sem_t.c`)

One producer and one consumer share `queue[DEF_NUM]`.  Each has an index of its own; the two
semaphores `blank_number` and `product_number` are all they have in common besides the slots.
Every statement of the two loops is a step: a thread that has taken a unit with `sem_wait` has
not yet touched its slot, and one that has is yet to `sem_post`.

The invariant (`Inv`) counts positions instead of indices.  The producer has stored position
`k` in slot `k % DEF_NUM`; the semaphores give the number of positions stored but not taken
and the number that may still be stored, up to the units that the threads hold.
-/

namespace LinuxExercise.ThreadSync

namespace SemRing

/-! ## The two threads -/

/-- Where `threadFunc_Producer` is: the statement it executes next. -/
inductive ProducerPc
  /-- `sem_wait(&blank_number)`. -/
  | wait
  /-- `queue[p] = rand() % 1000 + 1`. -/
  | store
  /-- `printf("Producer %d\n", queue[p])`. -/
  | print
  /-- `sem_post(&product_number)`. -/
  | post
  /-- `p = (p + 1) % DEF_NUM`. -/
  | advance
  | sleep
  deriving DecidableEq, Repr

/-- Where `threadFunc_Consumer` is. -/
inductive ConsumerPc
  /-- `sem_wait(&product_number)`. -/
  | wait
  /-- `printf("Consumer %d\n", queue[c])`. -/
  | read
  /-- `queue[c] = 0`. -/
  | clear
  /-- `sem_post(&blank_number)`. -/
  | post
  /-- `c = (c + 1) % DEF_NUM`. -/
  | advance
  | sleep
  deriving DecidableEq, Repr

end SemRing

open SemRing in
/-- The global and the local variables. -/
structure SemRing where
  queue : List ℕ
  blankNumber : ℕ
  productNumber : ℕ
  p : ℕ
  c : ℕ
  producer : ProducerPc
  consumer : ConsumerPc
  /-- History: the values stored. -/
  produced : List ℕ
  /-- History: the values read. -/
  consumed : List ℕ

namespace SemRing

/-- A step of one of the threads; `rand` is what the call of `rand()` returns. -/
inductive Label
  | producer (rand : ℕ)
  | consumer
  deriving DecidableEq, Repr

/-- After `sem_init(&blank_number, 0, DEF_NUM)` and `sem_init(&product_number, 0, 0)`. -/
def start (defNum : ℕ) : SemRing where
  queue := List.replicate defNum 0
  blankNumber := defNum
  productNumber := 0
  p := 0
  c := 0
  producer := .wait
  consumer := .wait
  produced := []
  consumed := []

/-- A step of `threadFunc_Producer`; it has none while it is blocked in `sem_wait`. -/
def stepProducer (defNum rand : ℕ) (s : SemRing) : Option SemRing :=
  match s.producer with
  | .wait =>
    if s.blankNumber = 0 then none
    else some { s with blankNumber := s.blankNumber - 1, producer := .store }
  | .store =>
    some { s with
      queue := s.queue.set s.p (rand % 1000 + 1)
      produced := s.produced ++ [rand % 1000 + 1]
      producer := .print }
  | .print => some { s with producer := .post }
  | .post => some { s with productNumber := s.productNumber + 1, producer := .advance }
  | .advance => some { s with p := (s.p + 1) % defNum, producer := .sleep }
  | .sleep => some { s with producer := .wait }

/-- A step of `threadFunc_Consumer`. -/
def stepConsumer (defNum : ℕ) (s : SemRing) : Option SemRing :=
  match s.consumer with
  | .wait =>
    if s.productNumber = 0 then none
    else some { s with productNumber := s.productNumber - 1, consumer := .read }
  | .read => some { s with consumed := s.consumed ++ [s.queue.getD s.c 0], consumer := .clear }
  | .clear => some { s with queue := s.queue.set s.c 0, consumer := .post }
  | .post => some { s with blankNumber := s.blankNumber + 1, consumer := .advance }
  | .advance => some { s with c := (s.c + 1) % defNum, consumer := .sleep }
  | .sleep => some { s with consumer := .wait }

def step (defNum : ℕ) (s : SemRing) : Label → Option SemRing
  | .producer rand => stepProducer defNum rand s
  | .consumer => stepConsumer defNum s

/-- The interleavings of the two threads. -/
def program (defNum : ℕ) : System SemRing Label := .ofStep (start defNum) (step defNum)

/-! ## Units and positions -/

/-- Units of `blank_number` taken for a slot that has not been written. -/
def reserved : ProducerPc → ℕ
  | .store => 1
  | _ => 0

/-- Units that the producer has still to give to `product_number`. -/
def stored : ProducerPc → ℕ
  | .print | .post => 1
  | _ => 0

/-- Units of `product_number` taken for a slot that has not been read. -/
def claimed : ConsumerPc → ℕ
  | .read => 1
  | _ => 0

/-- Units that the consumer has still to give to `blank_number`. -/
def emptied : ConsumerPc → ℕ
  | .clear | .post => 1
  | _ => 0

/-- Positions that have been read but whose slot has not been cleared. -/
def stale : ConsumerPc → ℕ
  | .clear => 1
  | _ => 0

/-- The positions stored that `p` has not passed. -/
def producerLag : ProducerPc → ℕ
  | .print | .post | .advance => 1
  | _ => 0

/-- The positions read that `c` has not passed. -/
def consumerLag : ConsumerPc → ℕ
  | .clear | .post | .advance => 1
  | _ => 0

/-- Positions stored and posted are counted by `product_number`, positions read and posted by
`blank_number`; the slots hold the positions between them. -/
structure Inv (defNum : ℕ) (s : SemRing) : Prop where
  size : s.queue.length = defNum
  p : ∃ k, s.produced.length = k + producerLag s.producer ∧ s.p = k % defNum
  c : ∃ k, s.consumed.length = k + consumerLag s.consumer ∧ s.c = k % defNum
  product : s.productNumber + s.consumed.length + claimed s.consumer + stored s.producer =
    s.produced.length
  blank : s.blankNumber + s.produced.length + reserved s.producer + emptied s.consumer =
    defNum + s.consumed.length
  order : s.consumed <+: s.produced
  full : Ring.Holds s.queue s.produced s.consumed.length
  empty : ∀ k, s.produced.length ≤ k →
    k + stale s.consumer < s.consumed.length + defNum → s.queue[k % defNum]? = some 0
  positive : ∀ v ∈ s.produced, 0 < v

theorem start_inv (defNum : ℕ) : Inv defNum (start defNum) where
  size := List.length_replicate
  p := ⟨0, rfl, (Nat.zero_mod _).symm⟩
  c := ⟨0, rfl, (Nat.zero_mod _).symm⟩
  product := rfl
  blank := rfl
  order := List.nil_prefix
  full k _ hk := absurd hk (Nat.not_lt_zero k)
  empty k _ hk := by
    have hpos : 0 < defNum := by
      simp only [start, stale, List.length_nil] at hk
      omega
    simp [start, Nat.mod_lt k hpos]
  positive v hv := absurd hv List.not_mem_nil

theorem stale_le_emptied (pc : ConsumerPc) : stale pc ≤ emptied pc := by
  cases pc <;> decide

/-- What the producer finds where it is about to store: the slot of the next position, which is
less than a lap ahead of the positions that have been cleared. -/
theorem Inv.at_store {defNum : ℕ} {s : SemRing} (h : Inv defNum s) (hpc : s.producer = .store) :
    s.p = s.produced.length % defNum ∧
      s.produced.length + stale s.consumer < s.consumed.length + defNum := by
  obtain ⟨k, hk, hp⟩ := h.p
  have hblank := h.blank
  have hstale := stale_le_emptied s.consumer
  rw [hpc] at hk hblank
  simp only [producerLag, reserved] at hk hblank
  refine ⟨?_, by omega⟩
  rw [hp, hk, Nat.add_zero]

/-- What the consumer finds where it is about to read: the slot of the next position, which has
been stored. -/
theorem Inv.at_read {defNum : ℕ} {s : SemRing} (h : Inv defNum s) (hpc : s.consumer = .read) :
    s.c = s.consumed.length % defNum ∧
      s.consumed.length + stored s.producer < s.produced.length := by
  obtain ⟨k, hk, hc⟩ := h.c
  have hproduct := h.product
  rw [hpc] at hk hproduct
  simp only [consumerLag, claimed] at hk hproduct
  refine ⟨?_, by omega⟩
  rw [hc, hk, Nat.add_zero]

/-- The slot that the consumer is about to read holds the next value. -/
theorem Inv.read_slot {defNum : ℕ} {s : SemRing} (h : Inv defNum s) (hpc : s.consumer = .read) :
    s.queue[s.c]? = s.produced[s.consumed.length]? := by
  obtain ⟨hc, hlt⟩ := h.at_read hpc
  rw [hc, ← h.size]
  exact h.full s.consumed.length le_rfl (by omega)

/-! ## The invariant is kept -/

/-- Storing the next position. -/
theorem Inv.store {defNum : ℕ} {s : SemRing} (h : Inv defNum s) (hpc : s.producer = .store)
    (rand : ℕ) :
    Inv defNum { s with
      queue := s.queue.set s.p (rand % 1000 + 1)
      produced := s.produced ++ [rand % 1000 + 1]
      producer := .print } := by
  obtain ⟨hp, hlap⟩ := h.at_store hpc
  have hproduct := h.product
  have hblank := h.blank
  rw [hpc] at hproduct hblank
  simp only [reserved, stored] at hproduct hblank
  have hlen : (s.produced ++ [rand % 1000 + 1]).length = s.produced.length + 1 :=
    List.length_append
  have hslot : s.produced.length % defNum < s.queue.length := by
    rw [h.size]
    exact Nat.mod_lt _ (by omega)
  -- No other position of the lap is in the slot that is written.
  have hother : ∀ k, s.produced.length ≠ k → s.produced.length < k + defNum →
      k < s.produced.length + defNum → s.produced.length % defNum ≠ k % defNum := by
    intro k hne hlt hgt
    rcases Nat.lt_or_gt_of_ne hne with hafter | hbefore
    · exact (Ring.mod_ne_of_lt hafter hgt).symm
    · exact Ring.mod_ne_of_lt hbefore hlt
  refine ⟨?_, ⟨s.produced.length, hlen, hp⟩, h.c, ?_, ?_, ?_, ?_, ?_, ?_⟩
  · exact List.length_set.trans h.size
  · simp only [hlen, stored]
    omega
  · simp only [hlen, reserved]
    omega
  · exact h.order.trans (List.prefix_append _ _)
  · intro k hk hlt
    simp only [List.length_set, hp, h.size]
    have hread : s.consumed.length ≤ k := hk
    by_cases hnew : k = s.produced.length
    · rw [hnew, List.getElem?_set_self hslot, List.getElem?_concat_length]
    · rw [hlen] at hlt
      have hold : k < s.produced.length := by omega
      rw [List.getElem?_set_ne (hother k (Ne.symm hnew) (by omega) (by omega)),
        List.getElem?_append_left hold, ← h.size]
      exact h.full k hk hold
  · intro k hk hlt
    simp only [hlen] at hk hlt
    simp only [hp]
    rw [List.getElem?_set_ne (hother k (by omega) (by omega) (by omega))]
    exact h.empty k (by omega) hlt
  · intro v hv
    rcases List.mem_append.mp hv with hold | hnew
    · exact h.positive v hold
    · rw [List.mem_singleton.mp hnew]
      exact Nat.succ_pos _

/-- Reading the next position. -/
theorem Inv.read {defNum : ℕ} {s : SemRing} (h : Inv defNum s) (hpc : s.consumer = .read) :
    Inv defNum { s with
      consumed := s.consumed ++ [s.queue.getD s.c 0]
      consumer := .clear } := by
  obtain ⟨hc, hlt⟩ := h.at_read hpc
  have hread := h.read_slot hpc
  have hproduct := h.product
  have hblank := h.blank
  rw [hpc] at hproduct hblank
  simp only [claimed, emptied] at hproduct hblank
  have hlen : (s.consumed ++ [s.queue.getD s.c 0]).length = s.consumed.length + 1 :=
    List.length_append
  refine ⟨h.size, h.p, ⟨s.consumed.length, hlen, hc⟩, ?_, ?_, ?_, ?_, ?_, h.positive⟩
  · simp only [hlen, claimed]
    omega
  · simp only [hlen, emptied]
    omega
  · have hpos : s.consumed.length < s.produced.length := by omega
    have hvalue : s.queue.getD s.c 0 = s.produced[s.consumed.length] := by
      rw [List.getD_eq_getElem?_getD, hread, List.getElem?_eq_getElem hpos]
      rfl
    rw [hvalue, List.prefix_iff_eq_take, List.length_append, List.length_singleton,
      List.take_succ_eq_append_getElem hpos, ← List.prefix_iff_eq_take.mp h.order]
  · exact h.full.mono (hlen ▸ Nat.le_succ _)
  · intro k hk hlt'
    simp only [hlen, stale] at hlt'
    apply h.empty k hk
    rw [hpc]
    simp only [stale]
    omega

/-- Clearing the slot of the position that has been read. -/
theorem Inv.clear {defNum : ℕ} {s : SemRing} (h : Inv defNum s) (hpc : s.consumer = .clear) :
    Inv defNum { s with queue := s.queue.set s.c 0, consumer := .post } := by
  obtain ⟨n, hn, hc⟩ := h.c
  have hproduct := h.product
  have hblank := h.blank
  rw [hpc] at hn hproduct hblank
  simp only [consumerLag, claimed, emptied] at hn hproduct hblank
  have hslot : n % defNum < s.queue.length := by
    rw [h.size]
    exact Nat.mod_lt _ (by omega)
  refine ⟨?_, h.p, ⟨n, hn, hc⟩, ?_, ?_, h.order, ?_, ?_, h.positive⟩
  · exact List.length_set.trans h.size
  · simp only [claimed]
    omega
  · simp only [emptied]
    omega
  · intro k hk hlt
    have hread : s.consumed.length ≤ k := hk
    have hstored : k < s.produced.length := hlt
    have hne : n % defNum ≠ k % defNum :=
      (Ring.mod_ne_of_lt (by omega : n < k) (by omega)).symm
    simp only [List.length_set, hc]
    rw [List.getElem?_set_ne (h.size.symm ▸ hne)]
    exact h.full k hk hlt
  · intro k hk hlt
    simp only [stale, Nat.add_zero] at hlt
    simp only [hc]
    -- The lap of the cleared slots ends with the one of the position just read.
    by_cases hlast : k = n + defNum
    · rw [hlast, Nat.add_mod_right, List.getElem?_set_self hslot]
    · have hstored : s.produced.length ≤ k := hk
      have hne : n % defNum ≠ k % defNum :=
        (Ring.mod_ne_of_lt (by omega : n < k) (by omega)).symm
      rw [List.getElem?_set_ne hne]
      apply h.empty k hk
      rw [hpc]
      simp only [stale]
      omega

theorem Inv.stepProducer {defNum rand : ℕ} {s s' : SemRing} (h : Inv defNum s)
    (hstep : stepProducer defNum rand s = some s') : Inv defNum s' := by
  have hproduct := h.product
  have hblank := h.blank
  obtain ⟨k, hk, hp⟩ := h.p
  unfold SemRing.stepProducer at hstep
  cases hpc : s.producer with
  | wait =>
    rw [hpc] at hstep hk hproduct hblank
    simp only at hstep
    split at hstep
    · cases hstep
    · next hunit =>
      obtain rfl := Option.some.inj hstep
      refine { h with p := ⟨k, hk, hp⟩, product := hproduct, blank := ?_ }
      simp only [reserved] at hblank ⊢
      omega
  | store =>
    rw [hpc] at hstep
    obtain rfl := Option.some.inj hstep
    exact h.store hpc rand
  | print =>
    rw [hpc] at hstep hk hproduct hblank
    obtain rfl := Option.some.inj hstep
    exact { h with p := ⟨k, hk, hp⟩, product := hproduct, blank := hblank }
  | post =>
    rw [hpc] at hstep hk hproduct hblank
    obtain rfl := Option.some.inj hstep
    refine { h with p := ⟨k, hk, hp⟩, product := ?_, blank := hblank }
    simp only [stored] at hproduct ⊢
    omega
  | advance =>
    rw [hpc] at hstep hk hproduct hblank
    obtain rfl := Option.some.inj hstep
    refine { h with p := ⟨k + 1, hk, ?_⟩, product := hproduct, blank := hblank }
    rw [hp, Nat.mod_add_mod]
  | sleep =>
    rw [hpc] at hstep hk hproduct hblank
    obtain rfl := Option.some.inj hstep
    exact { h with p := ⟨k, hk, hp⟩, product := hproduct, blank := hblank }

theorem Inv.stepConsumer {defNum : ℕ} {s s' : SemRing} (h : Inv defNum s)
    (hstep : stepConsumer defNum s = some s') : Inv defNum s' := by
  have hproduct := h.product
  have hblank := h.blank
  have hempty := h.empty
  obtain ⟨k, hk, hc⟩ := h.c
  unfold SemRing.stepConsumer at hstep
  cases hpc : s.consumer with
  | wait =>
    rw [hpc] at hstep hk hproduct hblank hempty
    simp only at hstep
    split at hstep
    · cases hstep
    · next hunit =>
      obtain rfl := Option.some.inj hstep
      refine { h with c := ⟨k, hk, hc⟩, product := ?_, blank := hblank, empty := hempty }
      simp only [claimed] at hproduct ⊢
      omega
  | read =>
    rw [hpc] at hstep
    obtain rfl := Option.some.inj hstep
    exact h.read hpc
  | clear =>
    rw [hpc] at hstep
    obtain rfl := Option.some.inj hstep
    exact h.clear hpc
  | post =>
    rw [hpc] at hstep hk hproduct hblank hempty
    obtain rfl := Option.some.inj hstep
    refine { h with c := ⟨k, hk, hc⟩, product := hproduct, blank := ?_, empty := hempty }
    simp only [emptied] at hblank ⊢
    omega
  | advance =>
    rw [hpc] at hstep hk hproduct hblank hempty
    obtain rfl := Option.some.inj hstep
    refine { h with c := ⟨k + 1, hk, ?_⟩, product := hproduct, blank := hblank, empty := hempty }
    rw [hc, Nat.mod_add_mod]
  | sleep =>
    rw [hpc] at hstep hk hproduct hblank hempty
    obtain rfl := Option.some.inj hstep
    exact { h with c := ⟨k, hk, hc⟩, product := hproduct, blank := hblank, empty := hempty }

theorem inv_of_run {defNum : ℕ} {h : List (Event SemRing Label)} {s : SemRing}
    (hrun : (program defNum).Run h s) : Inv defNum s := by
  refine hrun.invariant (I := Inv defNum) ?_ ?_
  · rintro s rfl
    exact start_inv defNum
  · intro s l s' _ hstep hinv
    cases l with
    | producer rand => exact hinv.stepProducer hstep
    | consumer => exact hinv.stepConsumer hstep

/-! ## What the program guarantees -/

/-- The producer accesses its slot next. -/
def ProducerAt (s : SemRing) : Prop := s.producer = .store ∨ s.producer = .print

/-- The consumer accesses its slot next. -/
def ConsumerAt (s : SemRing) : Prop := s.consumer = .read ∨ s.consumer = .clear

/-- The values arrive in order; the producer stores only where nothing is waiting to be
consumed, and the consumer reads only what is there; no unit is lost or made up; the two are
never both blocked. -/
structure Safe (defNum : ℕ) (s : SemRing) : Prop where
  order : s.consumed <+: s.produced
  store : s.producer = .store → s.queue[s.p]? = some 0 ∧
    ∀ k, s.consumed.length ≤ k → k < s.produced.length → s.p ≠ k % defNum
  read : s.consumer = .read → ∃ v, s.queue[s.c]? = some v ∧ 0 < v ∧
    s.produced[s.consumed.length]? = some v
  apart : ProducerAt s → ConsumerAt s → s.p ≠ s.c
  units : s.blankNumber + s.productNumber + (reserved s.producer + stored s.producer) +
    (claimed s.consumer + emptied s.consumer) = defNum
  live : ¬ ((s.producer = .wait ∧ s.blankNumber = 0) ∧ s.consumer = .wait ∧ s.productNumber = 0)

/-- At their slots the two threads are less than a lap apart. -/
theorem Inv.apart {defNum : ℕ} {s : SemRing} (h : Inv defNum s) (hp : ProducerAt s)
    (hc : ConsumerAt s) : s.p ≠ s.c := by
  obtain ⟨k, hk, hpk⟩ := h.p
  obtain ⟨n, hn, hcn⟩ := h.c
  have hproduct := h.product
  have hblank := h.blank
  have hlt : n < k ∧ k < n + defNum := by
    rcases hp with hp | hp <;> rcases hc with hc | hc <;> rw [hp] at hk hproduct hblank <;>
      rw [hc] at hn hproduct hblank <;>
      simp only [producerLag, consumerLag, reserved, stored, claimed, emptied] at * <;> omega
  rw [hpk, hcn]
  exact Ring.mod_ne_of_lt hlt.1 hlt.2

theorem Inv.safe {defNum : ℕ} {s : SemRing} (h : Inv defNum s) (hpos : 1 ≤ defNum) :
    Safe defNum s := by
  refine ⟨h.order, fun hpc => ?_, fun hpc => ?_, h.apart, ?_, ?_⟩
  · obtain ⟨hp, hlap⟩ := h.at_store hpc
    rw [hp]
    refine ⟨h.empty _ le_rfl hlap, fun k hread hstored => ?_⟩
    exact Ring.mod_ne_of_lt hstored (by omega)
  · obtain ⟨-, hlt⟩ := h.at_read hpc
    have hstored : s.consumed.length < s.produced.length := by omega
    have hvalue := List.getElem?_eq_getElem hstored
    exact ⟨_, (h.read_slot hpc).trans hvalue, h.positive _ (List.getElem_mem hstored), hvalue⟩
  · have hproduct := h.product
    have hblank := h.blank
    omega
  · rintro ⟨⟨hp, hblank0⟩, hc, hproduct0⟩
    have hproduct := h.product
    have hblank := h.blank
    rw [hp] at hproduct hblank
    rw [hc] at hproduct hblank
    simp only [reserved, stored, claimed, emptied] at hproduct hblank
    omega

/-- **The semaphore ring is a safe bounded buffer** for every ring size and every interleaving
of the producer and the consumer. -/
theorem sem_ring_safe (defNum : ℕ) (hpos : 1 ≤ defNum) (h : List (Event SemRing Label))
    (s : SemRing) (hrun : (program defNum).Run h s) : Safe defNum s :=
  (inv_of_run hrun).safe hpos

/-- A ring of one slot goes round twice. -/
theorem sem_ring_safe_one_slot : ∃ h s, (program 1).Run h s ∧ s.consumed = [8, 43] ∧
    Safe 1 s := by
  obtain ⟨h, s, hrun, hP⟩ := System.exists_run_of_exec (start 1) (step 1)
    (List.replicate 6 (.producer 7) ++ List.replicate 6 .consumer ++
      List.replicate 4 (.producer 42) ++ List.replicate 3 .consumer)
    (fun _ s => decide (s.consumed = [8, 43])) (by decide)
  exact ⟨h, s, hrun, of_decide_eq_true hP, sem_ring_safe 1 le_rfl h s hrun⟩

end SemRing

end LinuxExercise.ThreadSync
