import LinuxExercise.Framework.Simulation
import LinuxExercise.ThreadSync.Counter
import LinuxExercise.ThreadSync.NoSync

/-!
# What the mutex adds to the counter

The two programs differ in two statements, `pthread_mutex_lock` and `pthread_mutex_unlock`.  With
these two left out every run of the program with the mutex is a run of the one without it that
prints the same lines (`simulates`), so the mutex adds no behaviour; what it takes away is every
run that does not print the numbers in order, each of them once (`mutex_prints_in_order`).

The lines are those of the threads.  The two that `main` prints about the destruction of its
mutexes, which the other program does not have, are left out.
-/

namespace LinuxExercise.ThreadSync

/-! ## Output -/

namespace Counter

/-- The lines that a step prints: the thread and the number. -/
def printed (e : Event Counter Label) : List (ℕ × BitVec 32) :=
  match e.label with
  | .thread t =>
    match e.pre.threads[t]? with
    | some x => if x.pc = .print then [(t, x.val + 1)] else []
    | none => []
  | _ => []

end Counter

namespace NoSync

/-- The lines that a step prints: the thread and the number. -/
def printed (e : Event NoSync Label) : List (ℕ × BitVec 32) :=
  match e.label with
  | .thread t =>
    match e.pre.threads[t]? with
    | some x => if x.pc = .print then [(t, x.val + 1)] else []
    | none => []
  | _ => []

end NoSync

namespace Counter

/-! ## The simulation -/

/-- Where a thread is in the program without the mutex. -/
def Pc.forget : Pc → NoSync.Pc
  | .test => .test
  | .lock | .read => .read
  | .print => .print
  | .write => .write
  | .unlock | .next => .next
  | .exited => .exited

def Thread.forget (x : Thread) : NoSync.Thread where
  pc := x.pc.forget
  i := x.i
  val := x.val
  count := x.count

/-- The state without the mutex. -/
def forget (s : Counter) : NoSync where
  gNcount := s.gNcount
  threads := s.threads.map Thread.forget
  pending := s.pending
  joined := s.joined

@[simp] theorem Pc.forget_eq_exited {pc : Pc} : pc.forget = .exited ↔ pc = .exited := by
  cases pc <;> simp [Pc.forget]

@[simp] theorem Pc.forget_eq_print {pc : Pc} : pc.forget = .print ↔ pc = .print := by
  cases pc <;> simp [Pc.forget]

theorem Thread.forget_start (n : ℕ) : (Thread.start n).forget = NoSync.Thread.start n := rfl

/-- A step of a thread is a step without the mutex, or locks or unlocks it. -/
theorem Thread.step_forget {t : ℕ} {x x' : Thread} {o o' : Option ℕ} {g g' : BitVec 32}
    (h : x.step t o g = some (x', o', g')) :
    (x'.forget = x.forget ∧ g' = g ∧ x.pc ≠ .print) ∨
      x.forget.step g = some (x'.forget, g') := by
  obtain ⟨hpc, hi, rfl, -, rfl⟩ | ⟨hpc, hi, rfl, -, rfl⟩ | ⟨hpc, -, rfl, -, rfl⟩ |
    ⟨hpc, rfl, -, rfl⟩ | ⟨hpc, rfl, -, rfl⟩ | ⟨hpc, rfl, -, rfl⟩ | ⟨hpc, rfl, -, rfl⟩ |
    ⟨hpc, rfl, -, rfl⟩ := step_cases h
  case inr.inr.inl | inr.inr.inr.inr.inr.inr.inl =>
    left
    simp [Thread.forget, hpc, Pc.forget]
  all_goals
    right
    simp [Thread.forget, hpc, Pc.forget, NoSync.Thread.step]
  all_goals exact hi

/-- The program without the mutex can do what the program with it does. -/
theorem simulates (counts : List ℕ) : (program 0 counts).Simulates (NoSync.program counts) forget
    printed NoSync.printed where
  init s hs := by
    obtain rfl : s = start 0 counts := hs
    rfl
  step s l s' _ hstep := by
    change next s l = some s' at hstep
    cases l with
    | create =>
      right
      unfold next at hstep
      cases hpending : s.pending with
      | nil => simp [hpending] at hstep
      | cons n rest =>
        simp only [hpending, Option.some.injEq] at hstep
        subst hstep
        refine ⟨.create, ?_, rfl⟩
        show NoSync.next (forget s) .create = _
        simp [NoSync.next, forget, hpending, Thread.forget_start]
    | join =>
      right
      by_cases hcond : s.pending = [] ∧
          (s.threads[s.joined]?).any (fun x => x.pc = .exited) = true
      · rw [next, if_pos hcond] at hstep
        obtain rfl := Option.some.inj hstep
        refine ⟨.join, ?_, rfl⟩
        show NoSync.next (forget s) .join = _
        rw [NoSync.next, if_pos]
        · rfl
        · refine ⟨hcond.1, ?_⟩
          have hany := hcond.2
          simp only [forget, List.getElem?_map]
          cases hx : s.threads[s.joined]? with
          | none => simp [hx] at hany
          | some x => simpa [hx, Thread.forget] using hany
      · rw [next, if_neg hcond] at hstep
        cases hstep
    | thread t =>
      unfold next at hstep
      cases hx : s.threads[t]? with
      | none => simp [hx] at hstep
      | some x =>
        simp only [hx] at hstep
        obtain ⟨⟨x', o', g'⟩, hx', rfl⟩ := Option.map_eq_some_iff.mp hstep
        have hmap : (s.threads.map Thread.forget)[t]? = some x.forget := by simp [hx]
        rcases Thread.step_forget hx' with ⟨hsame, rfl, hpc⟩ | hmove
        · left
          refine ⟨?_, by simp [printed, hx, hpc]⟩
          obtain ⟨hlt, hget⟩ := List.getElem?_eq_some_iff.mp hmap
          simp only [forget, List.map_set, hsame, ← hget, List.set_getElem_self]
        · right
          refine ⟨.thread t, ?_, ?_⟩
          · show NoSync.next (forget s) (.thread t) = _
            simp [NoSync.next, forget, hx, hmove]
          · simp [printed, NoSync.printed, forget, hx, Thread.forget]

/-- **The mutex adds no behaviour.**  A run of the program with the mutex is, but for the locking
and unlocking, a run of the program without it: the same lines are printed and the state they
end in is the same. -/
theorem mutex_refines_no_sync (counts : List ℕ) (h : List (Event Counter Label)) (s : Counter)
    (hrun : (program 0 counts).Run h s) :
    ∃ h', (NoSync.program counts).Run h' (forget s) ∧
      System.output NoSync.printed h' = System.output printed h :=
  hrun.simulate (simulates counts)

/-- Two threads with one iteration each, the second one first. -/
theorem mutex_refines_no_sync_two : ∃ h' s', (NoSync.program [1, 1]).Run h' s' ∧
    System.output NoSync.printed h' = [(1, 1), (0, 2)] := by
  obtain ⟨h, s, hrun, htest⟩ := System.exists_run_of_exec (start 0 [1, 1]) next
    ([.create, .create] ++ List.replicate 7 (.thread 1) ++ List.replicate 7 (.thread 0))
    (fun h _ => decide (System.output printed h = [(1, 1), (0, 2)])) (by decide +kernel)
  obtain ⟨h', hrun', hout⟩ := mutex_refines_no_sync [1, 1] h s hrun
  exact ⟨h', forget s, hrun', hout.trans (of_decide_eq_true htest)⟩

/-! ## The order of the lines -/

/-- The thread has printed in its present iteration, which is not complete yet. -/
def Thread.hasPrinted (x : Thread) : Bool :=
  match x.pc with
  | .write | .unlock => true
  | _ => false

/-- The lines that a thread has printed. -/
def Thread.lines (x : Thread) : ℕ := x.completed + if x.hasPrinted then 1 else 0

theorem Thread.lines_step {t : ℕ} {x x' : Thread} {o o' : Option ℕ} {g g' : BitVec 32}
    (h : x.step t o g = some (x', o', g')) :
    x'.lines = x.lines + if x.pc = .print then 1 else 0 := by
  obtain ⟨hpc, -, rfl, -⟩ | ⟨hpc, -, rfl, -⟩ | ⟨hpc, -, rfl, -⟩ | ⟨hpc, rfl, -⟩ |
    ⟨hpc, rfl, -⟩ | ⟨hpc, rfl, -⟩ | ⟨hpc, rfl, -⟩ | ⟨hpc, rfl, -⟩ := step_cases h
  all_goals simp [Thread.lines, Thread.completed, Thread.hasPrinted, hpc]

/-- The lines that all threads have printed. -/
def lines (threads : List Thread) : ℕ := (threads.map Thread.lines).sum

/-- While a thread is about to print, every line belongs to a complete iteration. -/
theorem Inv.lines_eq {init : BitVec 32} {counts : List ℕ} {s : Counter} (hinv : Inv init counts s)
    {t : ℕ} {x : Thread} (hx : s.threads[t]? = some x) (hpc : x.pc = .print) :
    lines s.threads = completed s := by
  refine congrArg List.sum (List.map_congr_left fun y hy => ?_)
  obtain ⟨u, hu⟩ := List.getElem?_of_mem hy
  rw [Thread.lines, if_neg]
  · rfl
  · intro hprinted
    -- Nobody else is between its print and its unlock.
    have hut : u = t := hinv.mutex.unique (x := y) (y := x) hu
      (by obtain ⟨pc, i, val, count⟩ := y; cases pc <;> first | rfl | cases hprinted) hx
      (by simp [monitor, hpc, Pc.locks])
    subst hut
    obtain rfl := Option.some.inj (hx.symm.trans hu)
    simp [Thread.hasPrinted, hpc] at hprinted

/-- **The mutex makes the threads count.**  Whatever the order in which they run, the numbers
that the threads print are `init + 1`, `init + 2` and so on, one after the other. -/
theorem mutex_prints_in_order (init : BitVec 32) (counts : List ℕ)
    (h : List (Event Counter Label)) (s : Counter) (hrun : (program init counts).Run h s) :
    (System.output printed h).map Prod.snd =
      (List.range (lines s.threads)).map fun k => init + .ofNat 32 (k + 1) := by
  refine hrun.ledger (J := fun h s => (System.output printed h).map Prod.snd =
    (List.range (lines s.threads)).map fun k => init + .ofNat 32 (k + 1)) ?_ ?_
  · rintro s rfl
    rfl
  · intro h s l s' hr hstep ih
    change next s l = some s' at hstep
    rw [System.output_snoc, List.map_append, ih]
    cases l with
    | create =>
      unfold next at hstep
      cases hpending : s.pending with
      | nil => simp [hpending] at hstep
      | cons n rest =>
        simp only [hpending, Option.some.injEq] at hstep
        subst hstep
        simp [printed, lines, Thread.lines, Thread.completed, Thread.hasPrinted, Thread.start]
    | join =>
      by_cases hcond : s.pending = [] ∧
          (s.threads[s.joined]?).any (fun x => x.pc = .exited) = true
      · rw [next, if_pos hcond] at hstep
        obtain rfl := Option.some.inj hstep
        simp [printed]
      · rw [next, if_neg hcond] at hstep
        cases hstep
    | thread t =>
      unfold next at hstep
      cases hx : s.threads[t]? with
      | none => simp [hx] at hstep
      | some x =>
        simp only [hx] at hstep
        obtain ⟨⟨x', o', g'⟩, hx', rfl⟩ := Option.map_eq_some_iff.mp hstep
        have hset : lines (s.threads.set t x') + x.lines = lines s.threads + x'.lines :=
          sum_map_set_add hx
        have hone := Thread.lines_step hx'
        by_cases hpc : x.pc = .print
        · have hinv := inv_of_run hr
          have hlines : lines (s.threads.set t x') = lines s.threads + 1 := by
            rw [if_pos hpc] at hone
            omega
          have hval := hinv.mutex.inside t x hx (by simp [monitor, hpc, Pc.locks])
          simp only [monitor, hpc, view] at hval
          rw [hlines, List.range_succ, List.map_append, hinv.lines_eq hx hpc]
          simp [printed, hx, hpc, hval.2, hval.1, BitVec.ofNat_add, BitVec.add_assoc]
        · have hlines : lines (s.threads.set t x') = lines s.threads := by
            rw [if_neg hpc] at hone
            omega
          rw [hlines]
          simp [printed, hx, hpc]

/-- Two threads with one iteration each print 1 and 2. -/
theorem mutex_prints_in_order_two : ∃ h s, (program 0 [1, 1]).Run h s ∧
    (System.output printed h).map Prod.snd = [1, 2] := by
  obtain ⟨h, s, hrun, htest⟩ := System.exists_run_of_exec (start 0 [1, 1]) next
    ([.create, .create] ++ List.replicate 7 (.thread 1) ++ List.replicate 7 (.thread 0))
    (fun _ s => decide (lines s.threads = 2)) (by decide +kernel)
  have hlines : lines s.threads = 2 := of_decide_eq_true htest
  refine ⟨h, s, hrun, ?_⟩
  rw [mutex_prints_in_order 0 [1, 1] h s hrun, hlines]
  rfl

end Counter

end LinuxExercise.ThreadSync
