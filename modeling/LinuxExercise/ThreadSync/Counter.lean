import LinuxExercise.Framework.System
import LinuxExercise.Framework.Monitor
import LinuxExercise.Framework.Threads

/-!
# The counter under a mutex (`010_thread_sync/02thread_sync_lock_mutex.c`)

Each thread adds 1 to `g_ncount` as often as its loop goes round, and takes two steps for it: it
copies the counter to `val` and writes `val + 1` back.  `monitor` says what the mutex is for.
While it is free the counter is what the completed iterations have made of it, while a thread is
between its read and its write `val` is the counter, and after the write the counter is one
ahead until the thread unlocks.

The program starts two threads with `DEF_COUNT` iterations each; here `main` starts a thread for
each entry of a list of counts and joins them in that order.  `int` arithmetic wraps at 32 bits.
-/

namespace LinuxExercise.ThreadSync

namespace Counter

/-- Where a thread is in `threadFunc`. -/
inductive Pc
  /-- `i < DEF_COUNT`. -/
  | test
  /-- `pthread_mutex_lock(&g_mutex)`. -/
  | lock
  /-- `val = g_ncount`. -/
  | read
  | print
  /-- `g_ncount = val + 1`. -/
  | write
  /-- `pthread_mutex_unlock(&g_mutex)`. -/
  | unlock
  /-- `i++`. -/
  | next
  /-- `return (void*)0`. -/
  | exited
  deriving DecidableEq, Repr

/-- The local variables of `threadFunc`, with the number of iterations that it is to make. -/
structure Thread where
  pc : Pc
  i : ℕ
  val : BitVec 32
  count : ℕ
  deriving DecidableEq, Repr

/-- A thread as `pthread_create` starts it. -/
def Thread.start (count : ℕ) : Thread where
  pc := .test
  i := 0
  val := 0
  count := count

end Counter

open Counter in
structure Counter where
  gNcount : BitVec 32
  /-- The thread that has `g_mutex` locked. -/
  gMutex : Option ℕ
  /-- The threads in the order of their creation. -/
  threads : List Thread
  /-- `main`: the counts of the threads that it has still to create. -/
  pending : List ℕ
  /-- `main`: how many threads it has joined. -/
  joined : ℕ
  deriving DecidableEq, Repr

namespace Counter

/-- A step of thread `t`: its local state, the mutex and the counter afterwards. -/
def Thread.step (t : ℕ) (x : Thread) (gMutex : Option ℕ) (gNcount : BitVec 32) :
    Option (Thread × Option ℕ × BitVec 32) :=
  match x.pc with
  | .test => some ({ x with pc := if x.i < x.count then .lock else .exited }, gMutex, gNcount)
  | .lock => if gMutex = none then some ({ x with pc := .read }, some t, gNcount) else none
  | .read => some ({ x with pc := .print, val := gNcount }, gMutex, gNcount)
  | .print => some ({ x with pc := .write }, gMutex, gNcount)
  | .write => some ({ x with pc := .unlock }, gMutex, x.val + 1)
  | .unlock => some ({ x with pc := .next }, none, gNcount)
  | .next => some ({ x with pc := .test, i := x.i + 1 }, gMutex, gNcount)
  | .exited => none

inductive Label
  | create
  | join
  | thread (t : ℕ)
  deriving DecidableEq, Repr

def next (s : Counter) : Label → Option Counter
  | .create =>
    match s.pending with
    | [] => none
    | n :: rest => some { s with threads := s.threads ++ [.start n], pending := rest }
  | .join =>
    if s.pending = [] ∧ (s.threads[s.joined]?).any (fun x => x.pc = .exited) then
      some { s with joined := s.joined + 1 }
    else none
  | .thread t =>
    match s.threads[t]? with
    | none => none
    | some x => (x.step t s.gMutex s.gNcount).map fun (x', gMutex', gNcount') =>
      { s with threads := s.threads.set t x', gMutex := gMutex', gNcount := gNcount' }

/-- `main` is about to create threads with the given counts. -/
def start (init : BitVec 32) (counts : List ℕ) : Counter where
  gNcount := init
  gMutex := none
  threads := []
  pending := counts
  joined := 0

def program (init : BitVec 32) (counts : List ℕ) : System Counter Label :=
  .ofStep (start init counts) next

/-- What a step of a thread can be. -/
theorem Thread.step_cases {t : ℕ} {x x' : Thread} {o o' : Option ℕ} {g g' : BitVec 32}
    (h : x.step t o g = some (x', o', g')) :
    (x.pc = .test ∧ x.i < x.count ∧ x' = { x with pc := .lock } ∧ o' = o ∧ g' = g) ∨
    (x.pc = .test ∧ x.count ≤ x.i ∧ x' = { x with pc := .exited } ∧ o' = o ∧ g' = g) ∨
    (x.pc = .lock ∧ o = none ∧ x' = { x with pc := .read } ∧ o' = some t ∧ g' = g) ∨
    (x.pc = .read ∧ x' = { x with pc := .print, val := g } ∧ o' = o ∧ g' = g) ∨
    (x.pc = .print ∧ x' = { x with pc := .write } ∧ o' = o ∧ g' = g) ∨
    (x.pc = .write ∧ x' = { x with pc := .unlock } ∧ o' = o ∧ g' = x.val + 1) ∨
    (x.pc = .unlock ∧ x' = { x with pc := .next } ∧ o' = none ∧ g' = g) ∨
    (x.pc = .next ∧ x' = { x with pc := .test, i := x.i + 1 } ∧ o' = o ∧ g' = g) := by
  unfold Thread.step at h
  cases hpc : x.pc with
  | test =>
    by_cases hi : x.i < x.count
    · simp only [hpc, if_pos hi, Option.some.injEq, Prod.mk.injEq] at h
      obtain ⟨rfl, rfl, rfl⟩ := h
      exact .inl ⟨rfl, hi, rfl, rfl, rfl⟩
    · simp only [hpc, if_neg hi, Option.some.injEq, Prod.mk.injEq] at h
      obtain ⟨rfl, rfl, rfl⟩ := h
      exact .inr (.inl ⟨rfl, not_lt.mp hi, rfl, rfl, rfl⟩)
  | lock =>
    by_cases ho : o = none
    · simp only [hpc, if_pos ho, Option.some.injEq, Prod.mk.injEq] at h
      obtain ⟨rfl, rfl, rfl⟩ := h
      simp [ho]
    · simp [hpc, ho] at h
  | read | print | write | unlock | next =>
    simp only [hpc, Option.some.injEq, Prod.mk.injEq] at h
    obtain ⟨rfl, rfl, rfl⟩ := h
    simp
  | exited => simp [hpc] at h

/-! ## Completed iterations -/

/-- The iterations that a thread has completed: one is complete once the mutex is unlocked. -/
def Thread.completed (x : Thread) : ℕ := if x.pc = .next then x.i + 1 else x.i

def completed (s : Counter) : ℕ := (s.threads.map Thread.completed).sum

/-- An iteration is completed by the `unlock` and by nothing else. -/
theorem Thread.completed_step {t : ℕ} {x x' : Thread} {o o' : Option ℕ} {g g' : BitVec 32}
    (h : x.step t o g = some (x', o', g')) :
    x'.completed = x.completed + if x.pc = .unlock then 1 else 0 := by
  obtain ⟨hpc, -, rfl, -⟩ | ⟨hpc, -, rfl, -⟩ | ⟨hpc, -, rfl, -⟩ | ⟨hpc, rfl, -⟩ |
    ⟨hpc, rfl, -⟩ | ⟨hpc, rfl, -⟩ | ⟨hpc, rfl, -⟩ | ⟨hpc, rfl, -⟩ := step_cases h
  all_goals simp [Thread.completed, hpc]

/-- What is known of a thread's loop variable. -/
structure Thread.Ok (x : Thread) : Prop where
  le : x.i ≤ x.count
  lt : x.pc ≠ .test → x.pc ≠ .exited → x.i < x.count
  exited : x.pc = .exited → x.i = x.count

theorem Thread.Ok.step {t : ℕ} {x x' : Thread} {o o' : Option ℕ} {g g' : BitVec 32}
    (hok : x.Ok) (h : x.step t o g = some (x', o', g')) : x'.Ok ∧ x'.count = x.count := by
  obtain ⟨hle, hlt, hexited⟩ := hok
  obtain ⟨hpc, hi, rfl, -⟩ | ⟨hpc, hi, rfl, -⟩ | ⟨hpc, -, rfl, -⟩ | ⟨hpc, rfl, -⟩ |
    ⟨hpc, rfl, -⟩ | ⟨hpc, rfl, -⟩ | ⟨hpc, rfl, -⟩ | ⟨hpc, rfl, -⟩ := step_cases h
  · exact ⟨⟨hle, fun _ _ => hi, fun h => by cases h⟩, rfl⟩
  · exact ⟨⟨hle, fun _ h => absurd rfl h, fun _ => le_antisymm hle hi⟩, rfl⟩
  iterate 5
    have hi := hlt (by simp [hpc]) (by simp [hpc])
    refine ⟨⟨hle, fun _ _ => hi, fun h => by cases h⟩, rfl⟩
  · have hi := hlt (by simp [hpc]) (by simp [hpc])
    exact ⟨⟨hi, fun h => absurd rfl h, fun h => by cases h⟩, rfl⟩

/-! ## The mutex -/

/-- Between `lock` and `unlock`. -/
def Pc.locks : Pc → Bool
  | .read | .print | .write | .unlock => true
  | _ => false

/-- The counter and the completed iterations. -/
structure Account where
  gNcount : BitVec 32
  completed : ℕ

/-- What the mutex protects: `init` is the initial value of the counter. -/
def monitor (init : BitVec 32) : Monitor Thread Account where
  holds x := x.pc.locks
  free r := r.gNcount = init + .ofNat 32 r.completed
  inside x r :=
    match x.pc with
    | .read => r.gNcount = init + .ofNat 32 r.completed
    | .print | .write => r.gNcount = init + .ofNat 32 r.completed ∧ x.val = r.gNcount
    | .unlock => r.gNcount = init + .ofNat 32 (r.completed + 1)
    | _ => True

/-- A step of a thread is a move of the monitor: it locks and unlocks as it should, and it keeps
the account. -/
theorem Thread.step_move {init : BitVec 32} {t n : ℕ} {x x' : Thread} {o o' : Option ℕ}
    {g g' : BitVec 32} (h : x.step t o g = some (x', o', g')) :
    (monitor init).Move t o x ⟨g, n⟩ o' x' ⟨g', n + if x.pc = .unlock then 1 else 0⟩ := by
  obtain ⟨hpc, -, rfl, rfl, rfl⟩ | ⟨hpc, -, rfl, rfl, rfl⟩ | ⟨hpc, rfl, rfl, rfl, rfl⟩ |
    ⟨hpc, rfl, rfl, rfl⟩ | ⟨hpc, rfl, rfl, rfl⟩ | ⟨hpc, rfl, rfl, rfl⟩ | ⟨hpc, rfl, rfl, rfl⟩ |
    ⟨hpc, rfl, rfl, rfl⟩ := step_cases h
  all_goals simp only [hpc, reduceCtorEq, if_true, if_false, add_zero]
  · exact .outside (by simp [monitor, hpc, Pc.locks]) rfl id fun _ _ h => h
  · exact .outside (by simp [monitor, hpc, Pc.locks]) rfl id fun _ _ h => h
  · exact .acquire (by simp [monitor, hpc, Pc.locks]) rfl id
  · refine .within (by simp [monitor, hpc, Pc.locks]) rfl fun h => ?_
    simp only [monitor, hpc] at h
    exact ⟨h, rfl⟩
  · refine .within (by simp [monitor, hpc, Pc.locks]) rfl fun h => ?_
    simp only [monitor, hpc] at h
    exact h
  · refine .within (by simp [monitor, hpc, Pc.locks]) rfl fun h => ?_
    simp only [monitor, hpc] at h
    -- no one has written to the counter since `val` was read
    show x.val + 1 = init + .ofNat 32 (n + 1)
    rw [h.2, h.1, BitVec.ofNat_add, ← BitVec.add_assoc]
    rfl
  · refine .release (by simp [monitor, hpc, Pc.locks]) rfl fun h => ?_
    simp only [monitor, hpc] at h
    exact h
  · exact .outside (by simp [monitor, hpc, Pc.locks]) rfl id fun _ _ h => h

/-- What the monitor sees of a state. -/
def view (s : Counter) : Monitor.View ℕ Thread Account where
  owner := s.gMutex
  thread t := s.threads[t]?
  res := ⟨s.gNcount, completed s⟩

/-! ## All interleavings -/

/-- The invariant: the monitor's, the loops of the threads, and what `main` has done so far. -/
structure Inv (init : BitVec 32) (counts : List ℕ) (s : Counter) : Prop where
  mutex : (monitor init).Inv (view s)
  ok : ∀ x ∈ s.threads, x.Ok
  counts : s.threads.map Thread.count ++ s.pending = counts
  joined : ∀ t < s.joined, ∃ x, s.threads[t]? = some x ∧ x.pc = .exited

theorem inv_start (init : BitVec 32) (counts : List ℕ) : Inv init counts (start init counts) where
  mutex := by
    refine .of_nobody rfl (fun t x hx => by cases hx) ?_
    show init = init + .ofNat 32 0
    exact (BitVec.add_zero init).symm
  ok x hx := absurd hx List.not_mem_nil
  counts := rfl
  joined t ht := absurd ht (Nat.not_lt_zero t)

/-- A new thread does not have the mutex. -/
theorem Inv.create {init : BitVec 32} {counts : List ℕ} {s : Counter} (hinv : Inv init counts s)
    {n : ℕ} {rest : List ℕ} (hpending : s.pending = n :: rest) :
    Inv init counts { s with threads := s.threads ++ [.start n], pending := rest } where
  mutex := by
    have hcompleted : completed { s with threads := s.threads ++ [.start n], pending := rest } =
        completed s := by
      simp [completed, Thread.completed, Thread.start]
    refine hinv.mutex.passive rfl (fun t y hy => ?_) ?_ ?_
    · show (s.threads ++ [Thread.start n])[t]? = some y ↔ s.threads[t]? = some y
      rcases lt_trichotomy t s.threads.length with hlt | rfl | hgt
      · rw [List.getElem?_append_left hlt]
      · rw [List.getElem?_concat_length, List.getElem?_eq_none le_rfl]
        refine ⟨fun h => ?_, fun h => by cases h⟩
        obtain rfl := Option.some.inj h
        cases hy
      · rw [List.getElem?_eq_none (by simpa using hgt), List.getElem?_eq_none hgt.le]
    · intro h
      simpa only [view, hcompleted] using h
    · intro y _ h
      simpa only [view, hcompleted] using h
  ok := by
    rw [List.forall_mem_append, List.forall_mem_singleton]
    exact ⟨hinv.ok, ⟨Nat.zero_le _, fun h => absurd rfl h, fun h => by cases h⟩⟩
  counts := by
    rw [← hinv.counts, hpending, List.map_append, List.append_assoc]
    rfl
  joined t ht := by
    obtain ⟨x, hx, hpc⟩ := hinv.joined t ht
    refine ⟨x, ?_, hpc⟩
    show (s.threads ++ [Thread.start n])[t]? = some x
    rw [List.getElem?_append_left (List.getElem?_eq_some_iff.mp hx).1, hx]

/-- A step of a thread. -/
theorem Inv.thread {init : BitVec 32} {counts : List ℕ} {s : Counter} (hinv : Inv init counts s)
    {t : ℕ} {x x' : Thread} {o' : Option ℕ} {g' : BitVec 32} (hx : s.threads[t]? = some x)
    (hstep : x.step t s.gMutex s.gNcount = some (x', o', g')) :
    Inv init counts { s with threads := s.threads.set t x', gMutex := o', gNcount := g' } := by
  have hlt : t < s.threads.length := (List.getElem?_eq_some_iff.mp hx).1
  have hself : (s.threads.set t x')[t]? = some x' := List.getElem?_set_self hlt
  have hok := (hinv.ok x (List.mem_of_getElem? hx)).step hstep
  have hcompleted :
      completed { s with threads := s.threads.set t x', gMutex := o', gNcount := g' } =
        completed s + if x.pc = .unlock then 1 else 0 := by
    have hsum := sum_map_set_add (f := Thread.completed) (b := x') hx
    have hone := Thread.completed_step hstep
    show ((s.threads.set t x').map Thread.completed).sum = (s.threads.map Thread.completed).sum + _
    omega
  refine ⟨?_, ?_, ?_, ?_⟩
  · refine hinv.mutex.move hx hself (fun u hu z _ => ?_) ?_
    · show (s.threads.set t x')[u]? = some z ↔ s.threads[u]? = some z
      rw [List.getElem?_set_ne hu.symm]
    · simp only [view, hcompleted]
      exact Thread.step_move hstep
  · intro y hy
    rcases List.mem_or_eq_of_mem_set hy with hold | rfl
    · exact hinv.ok y hold
    · exact hok.1
  · rw [← hinv.counts, List.map_set, hok.2]
    refine congrArg (· ++ s.pending) ?_
    refine List.ext_getElem? fun u => ?_
    by_cases hu : t = u
    · subst hu
      rw [List.getElem?_set_self (by rwa [List.length_map]), List.getElem?_map, hx]
      rfl
    · rw [List.getElem?_set_ne hu]
  · intro u hu
    obtain ⟨y, hy, hpc⟩ := hinv.joined u hu
    by_cases hut : u = t
    · subst hut
      obtain rfl := Option.some.inj (hx.symm.trans hy)
      simp [Thread.step, hpc] at hstep
    · exact ⟨y, by rw [← hy]; exact List.getElem?_set_ne (Ne.symm hut), hpc⟩

/-- A thread that has returned is joined. -/
theorem Inv.join {init : BitVec 32} {counts : List ℕ} {s : Counter} (hinv : Inv init counts s)
    (hexited : (s.threads[s.joined]?).any (fun x => x.pc = .exited) = true) :
    Inv init counts { s with joined := s.joined + 1 } where
  mutex := hinv.mutex
  ok := hinv.ok
  counts := hinv.counts
  joined t ht := by
    rcases Nat.lt_succ_iff_lt_or_eq.mp ht with hold | rfl
    · exact hinv.joined t hold
    · cases hx : s.threads[s.joined]? with
      | none => simp [hx] at hexited
      | some x =>
        rw [hx] at hexited
        exact ⟨x, rfl, of_decide_eq_true hexited⟩

theorem Inv.step {init : BitVec 32} {counts : List ℕ} {s s' : Counter} {l : Label}
    (hinv : Inv init counts s) (hstep : next s l = some s') : Inv init counts s' := by
  cases l with
  | create =>
    unfold next at hstep
    cases hpending : s.pending with
    | nil => simp [hpending] at hstep
    | cons n rest =>
      simp only [hpending, Option.some.injEq] at hstep
      subst hstep
      exact hinv.create hpending
  | join =>
    by_cases hcond : s.pending = [] ∧ (s.threads[s.joined]?).any (fun x => x.pc = .exited) = true
    · rw [next, if_pos hcond] at hstep
      obtain rfl := Option.some.inj hstep
      exact hinv.join hcond.2
    · rw [next, if_neg hcond] at hstep
      cases hstep
  | thread t =>
    unfold next at hstep
    cases hx : s.threads[t]? with
    | none => simp [hx] at hstep
    | some x =>
      simp only [hx] at hstep
      obtain ⟨⟨x', o', g'⟩, hx', rfl⟩ := Option.map_eq_some_iff.mp hstep
      exact hinv.thread hx hx'

theorem inv_of_run {init : BitVec 32} {counts : List ℕ} {h : List (Event Counter Label)}
    {s : Counter} (hrun : (program init counts).Run h s) : Inv init counts s := by
  refine hrun.invariant (I := Inv init counts) ?_ fun s l s' _ hstep hinv => hinv.step hstep
  rintro s rfl
  exact inv_start init counts

/-- When all threads have been joined nobody has the mutex, and all iterations are complete. -/
theorem Inv.all_joined {init : BitVec 32} {counts : List ℕ} {s : Counter}
    (hinv : Inv init counts s) (hjoined : s.joined = counts.length) :
    s.gMutex = none ∧ completed s = counts.sum := by
  have hlength : s.threads.length + s.pending.length = counts.length := by
    rw [← hinv.counts, List.length_append, List.length_map]
  have hexited : ∀ x ∈ s.threads, x.pc = .exited := by
    intro x hx
    obtain ⟨t, ht⟩ := List.mem_iff_getElem?.mp hx
    obtain ⟨y, hy, hpc⟩ := hinv.joined t (by
      have := (List.getElem?_eq_some_iff.mp ht).1
      omega)
    obtain rfl := Option.some.inj (ht.symm.trans hy)
    exact hpc
  have hpending : s.pending = [] := by
    rw [← List.length_eq_zero_iff]
    by_contra hne
    obtain ⟨x, hx, -⟩ := hinv.joined s.threads.length (by omega)
    exact (List.getElem?_eq_some_iff.mp hx).1.false
  constructor
  · by_contra hne
    obtain ⟨t, ht⟩ := Option.ne_none_iff_exists'.mp hne
    obtain ⟨x, hx, hholds⟩ := (hinv.mutex.owner_iff t).mp ht
    have hpc := hexited x (List.mem_of_getElem? hx)
    simp [monitor, hpc, Pc.locks] at hholds
  · have hcounts := hinv.counts
    rw [hpending, List.append_nil] at hcounts
    rw [completed, ← hcounts]
    refine congrArg List.sum (List.map_congr_left fun x hx => ?_)
    have hpc := hexited x hx
    rw [← (hinv.ok x hx).exited hpc]
    simp [Thread.completed, hpc]

/-- `g_ncount` is the initial value plus `n`: modulo `2 ^ 32`, and as an `int` if that has room
for the sum. -/
def Adds (init gNcount : BitVec 32) (n : ℕ) : Prop :=
  gNcount = init + .ofNat 32 n ∧
    (init.toInt + n < 2 ^ 31 → gNcount.toInt = init.toInt + n)

theorem adds_iff {init gNcount : BitVec 32} {n : ℕ} :
    Adds init gNcount n ↔ gNcount = init + .ofNat 32 n := by
  refine ⟨And.left, fun h => ⟨h, fun hlt => ?_⟩⟩
  have hle : -2 ^ 31 ≤ init.toInt := BitVec.le_toInt init
  rw [h, BitVec.toInt_add, BitVec.toInt_ofNat', Int.add_bmod_bmod]
  exact Int.bmod_eq_of_le (by omega) (by omega)

/-- **No update is lost.** Whenever the mutex is free the counter is the initial value plus the
iterations that all threads have completed, and once `main` has joined its threads it is the
initial value plus the sum of their counts. -/
theorem no_lost_update (init : BitVec 32) (counts : List ℕ) (h : List (Event Counter Label))
    (s : Counter) (hrun : (program init counts).Run h s) :
    (s.gMutex = none → Adds init s.gNcount (completed s)) ∧
      (s.joined = counts.length → Adds init s.gNcount counts.sum) := by
  have hinv := inv_of_run hrun
  have hfree : s.gMutex = none → Adds init s.gNcount (completed s) := fun hnone =>
    adds_iff.mpr (hinv.mutex.free hnone)
  refine ⟨hfree, fun hjoined => ?_⟩
  obtain ⟨hnone, hsum⟩ := hinv.all_joined hjoined
  rw [← hsum]
  exact hfree hnone

/-- Two threads with one iteration each, the second one waiting for the first. -/
theorem no_lost_update_two : ∃ h s, (program 0 [1, 1]).Run h s ∧ s.joined = 2 ∧
    s.gNcount = 2 := by
  obtain ⟨h, s, hrun, htest⟩ := System.exists_run_of_exec (start 0 [1, 1]) next
    ([.create, .create, .thread 0, .thread 1, .thread 0, .thread 0, .thread 0, .thread 0,
      .thread 0] ++ List.replicate 7 (.thread 1) ++ List.replicate 2 (.thread 0) ++
      [.join, .join])
    (fun _ s => decide (s.joined = 2)) (by decide +kernel)
  have hjoined := of_decide_eq_true htest
  exact ⟨h, s, hrun, hjoined, ((no_lost_update 0 [1, 1] h s hrun).2 hjoined).1⟩

end Counter

end LinuxExercise.ThreadSync
