import LinuxExercise.Framework.System
import LinuxExercise.Framework.Monitor

/-!
# The counter under a read-write lock (`010_thread_sync/03thread_sync_lock_rwlock.c`)

Writers and readers both call `pthread_rwlock_wrlock`, so the lock is a mutex and no two readers
are ever inside at the same time.  In return the lines on the terminal are the history of one
counter that is used by one thread at a time (`lines_count`): each line shows how many writes
were printed before it, whatever the order in which the threads run.

`main` starts three writers and seven readers, which never return; here it starts a thread for
each entry of a list.  A `pthread_create` that fails starts no thread and changes nothing.
-/

namespace LinuxExercise.ThreadSync

namespace RwLock

inductive Role
  /-- `threadFunc_Write` -/
  | writer
  /-- `threadFunc_Read` -/
  | reader
  deriving DecidableEq, Repr

/-- Where a thread is in its function. -/
inductive Pc
  /-- `pthread_rwlock_wrlock(&rwlock)`, by both. -/
  | lock
  /-- `t = g_ncount`, by a writer. -/
  | read
  /-- `usleep(100)`, by a writer. -/
  | usleep
  /-- The arguments of `printf`: `++g_ncount` by a writer, `g_ncount` by a reader. -/
  | args
  /-- `printf` -/
  | print
  /-- `pthread_rwlock_unlock(&rwlock)` -/
  | unlock
  /-- `sleep(1)` -/
  | sleep
  deriving DecidableEq, Repr

/-- A thread with the local `t` and the last argument of its `printf`. -/
structure Thread where
  role : Role
  pc : Pc
  t : BitVec 32
  arg : BitVec 32
  deriving DecidableEq, Repr

def Thread.start (role : Role) : Thread := ⟨role, .lock, 0, 0⟩

/-- A line on the terminal, with the thread that printed it. -/
inductive Line
  | write (thread : ℕ) (t n : BitVec 32)
  | read (thread : ℕ) (n : BitVec 32)
  deriving DecidableEq, Repr

end RwLock

open RwLock in
structure RwLock where
  gNcount : BitVec 32
  /-- The thread that has `rwlock` locked for writing; nobody locks it for reading. -/
  rwlock : Option ℕ
  /-- The threads in the order of their creation. -/
  threads : List Thread
  /-- `main`: the threads that it has still to create. -/
  pending : List Role
  stdout : List Line
  deriving DecidableEq, Repr

namespace RwLock

/-- A step of thread `me`: its local state, the lock, the counter and what it prints. -/
def Thread.step (me : ℕ) (x : Thread) (rwlock : Option ℕ) (gNcount : BitVec 32) :
    Option (Thread × Option ℕ × BitVec 32 × List Line) :=
  match x.pc, x.role with
  | .lock, .writer =>
    if rwlock = none then some ({ x with pc := .read }, some me, gNcount, []) else none
  | .lock, .reader =>
    if rwlock = none then some ({ x with pc := .args }, some me, gNcount, []) else none
  | .read, _ => some ({ x with pc := .usleep, t := gNcount }, rwlock, gNcount, [])
  | .usleep, _ => some ({ x with pc := .args }, rwlock, gNcount, [])
  | .args, .writer =>
    some ({ x with pc := .print, arg := gNcount + 1 }, rwlock, gNcount + 1, [])
  | .args, .reader => some ({ x with pc := .print, arg := gNcount }, rwlock, gNcount, [])
  | .print, .writer =>
    some ({ x with pc := .unlock }, rwlock, gNcount, [.write me x.t x.arg])
  | .print, .reader => some ({ x with pc := .unlock }, rwlock, gNcount, [.read me x.arg])
  | .unlock, _ => some ({ x with pc := .sleep }, none, gNcount, [])
  | .sleep, _ => some ({ x with pc := .lock }, rwlock, gNcount, [])

inductive Label
  | create
  | thread (t : ℕ)
  deriving DecidableEq, Repr

/-- One step; once `main` has created its threads it joins a thread that never returns. -/
def next (s : RwLock) : Label → Option RwLock
  | .create =>
    match s.pending with
    | [] => none
    | role :: rest => some { s with threads := s.threads ++ [.start role], pending := rest }
  | .thread t =>
    match s.threads[t]? with
    | none => none
    | some x => (x.step t s.rwlock s.gNcount).map fun (x', rwlock', gNcount', lines) =>
      { s with threads := s.threads.set t x', rwlock := rwlock', gNcount := gNcount',
               stdout := s.stdout ++ lines }

/-- `main` is about to create its threads; `g_ncount` is a global without an initialiser. -/
def start (roles : List Role) : RwLock where
  gNcount := 0
  rwlock := none
  threads := []
  pending := roles
  stdout := []

def program (roles : List Role) : System RwLock Label := .ofStep (start roles) next

/-! ## The lines as the history of a counter -/

def Line.isWrite : Line → Bool
  | .write _ _ _ => true
  | .read _ _ => false

/-- How many of the lines are writes. -/
def writes (lines : List Line) : ℕ := lines.countP Line.isWrite

/-- The line is that of a counter that stands at `n`. -/
def Line.Shows (n : ℕ) : Line → Prop
  | .write _ t v => t = .ofNat 32 n ∧ v = .ofNat 32 (n + 1)
  | .read _ v => v = .ofNat 32 n

/-- Each line shows how many writes come before it. -/
def Counts (lines : List Line) : Prop :=
  ∀ before line after, lines = before ++ line :: after → line.Shows (writes before)

theorem counts_nil : Counts [] := by
  intro before line after h
  simp at h

theorem Counts.snoc {lines : List Line} (h : Counts lines) {line : Line}
    (hline : line.Shows (writes lines)) : Counts (lines ++ [line]) := by
  intro before line' after heq
  rcases List.eq_nil_or_concat after with rfl | ⟨after, last, rfl⟩
  · obtain ⟨rfl, hlast⟩ := List.append_inj' heq rfl
    obtain rfl := List.singleton_inj.mp hlast
    exact hline
  · rw [List.concat_eq_append, ← List.cons_append, ← List.append_assoc] at heq
    obtain ⟨rfl, -⟩ := List.append_inj' heq rfl
    exact h before line' after rfl

/-! ## The lock -/

/-- Between `pthread_rwlock_wrlock` and `pthread_rwlock_unlock`. -/
def Pc.locks : Pc → Bool
  | .read | .usleep | .args | .print | .unlock => true
  | .lock | .sleep => false

/-- The counter and what has been printed. -/
structure Account where
  gNcount : BitVec 32
  stdout : List Line

/-- The counter stands at the number of writes, and so did it at each line. -/
def Account.Even (r : Account) : Prop :=
  Counts r.stdout ∧ r.gNcount = .ofNat 32 (writes r.stdout)

/-- What the lock protects. -/
def monitor : Monitor Thread Account where
  holds x := x.pc.locks
  free := Account.Even
  inside x r :=
    match x.pc, x.role with
    | .usleep, _ => r.Even ∧ x.t = r.gNcount
    | .args, .writer => r.Even ∧ x.t = r.gNcount
    | .print, .writer => Counts r.stdout ∧ x.t = .ofNat 32 (writes r.stdout) ∧
        x.arg = .ofNat 32 (writes r.stdout + 1) ∧ r.gNcount = x.arg
    | .print, .reader => r.Even ∧ x.arg = r.gNcount
    | _, _ => r.Even

/-- A writer alone copies the counter before it sleeps. -/
def Thread.Ok (x : Thread) : Prop := x.pc = .read ∨ x.pc = .usleep → x.role = .writer

theorem Thread.Ok.step {me : ℕ} {x x' : Thread} {o o' : Option ℕ} {g g' : BitVec 32}
    {lines : List Line} (hok : x.Ok) (h : x.step me o g = some (x', o', g', lines)) : x'.Ok := by
  obtain ⟨role, pc, t, arg⟩ := x
  cases pc <;> cases role <;> simp only [Thread.step] at h
  all_goals try split at h
  all_goals cases h
  all_goals simp_all [Thread.Ok]

/-- A step of a thread is a move of the monitor. -/
theorem Thread.step_move {me : ℕ} {x x' : Thread} {o o' : Option ℕ} {g g' : BitVec 32}
    {out lines : List Line} (hok : x.Ok) (h : x.step me o g = some (x', o', g', lines)) :
    monitor.Move me o x ⟨g, out⟩ o' x' ⟨g', out ++ lines⟩ := by
  obtain ⟨role, pc, t, arg⟩ := x
  cases pc <;> cases role <;> simp only [Thread.step] at h
  case read.reader | usleep.reader => simp [Thread.Ok] at hok
  case lock.writer | lock.reader =>
    split at h
    · next hfree =>
      cases h
      subst hfree
      rw [List.append_nil]
      exact .acquire rfl rfl id
    · cases h
  all_goals cases h
  case sleep.writer | sleep.reader =>
    rw [List.append_nil]
    exact .outside rfl rfl id fun _ _ => id
  case unlock.writer | unlock.reader =>
    rw [List.append_nil]
    exact .release rfl rfl id
  case read.writer =>
    rw [List.append_nil]
    exact .within rfl rfl fun hin => ⟨hin, rfl⟩
  case usleep.writer =>
    rw [List.append_nil]
    exact .within rfl rfl id
  case args.writer =>
    rw [List.append_nil]
    refine .within rfl rfl ?_
    rintro ⟨⟨hcounts, hg⟩, ht⟩
    refine ⟨hcounts, ht.trans hg, ?_, rfl⟩
    show g + 1 = _
    rw [show g = .ofNat 32 (writes out) from hg, BitVec.ofNat_add]
    rfl
  case args.reader =>
    rw [List.append_nil]
    exact .within rfl rfl fun hin => ⟨hin, rfl⟩
  case print.writer =>
    refine .within rfl rfl ?_
    rintro ⟨hcounts, ht, harg, hg⟩
    refine ⟨hcounts.snoc ⟨ht, harg⟩, ?_⟩
    show g = _
    rw [show g = arg from hg, show arg = _ from harg]
    simp [writes, List.countP_append, Line.isWrite]
  case print.reader =>
    refine .within rfl rfl ?_
    rintro ⟨⟨hcounts, hg⟩, harg⟩
    refine ⟨hcounts.snoc (show arg = _ from harg.trans hg), ?_⟩
    show g = _
    rw [show g = _ from hg]
    simp [writes, List.countP_append, Line.isWrite]

/-! ## All interleavings -/

/-- What the monitor sees of a state. -/
def view (s : RwLock) : Monitor.View ℕ Thread Account where
  owner := s.rwlock
  thread t := s.threads[t]?
  res := ⟨s.gNcount, s.stdout⟩

structure Inv (s : RwLock) : Prop where
  lock : monitor.Inv (view s)
  ok : ∀ x ∈ s.threads, x.Ok

theorem inv_start (roles : List Role) : Inv (start roles) where
  lock := .of_nobody rfl (fun t x hx => by cases hx) ⟨counts_nil, rfl⟩
  ok := nofun

theorem Inv.step {s s' : RwLock} {l : Label} (hinv : Inv s) (hstep : next s l = some s') :
    Inv s' := by
  cases l with
  | create =>
    unfold next at hstep
    cases hpending : s.pending with
    | nil => simp [hpending] at hstep
    | cons role rest =>
      simp only [hpending, Option.some.injEq] at hstep
      subst hstep
      refine ⟨hinv.lock.passive rfl (fun t y hy => ?_) id fun _ _ => id, ?_⟩
      · show (s.threads ++ [Thread.start role])[t]? = some y ↔ s.threads[t]? = some y
        rcases lt_trichotomy t s.threads.length with hlt | rfl | hgt
        · rw [List.getElem?_append_left hlt]
        · rw [List.getElem?_concat_length, List.getElem?_eq_none le_rfl]
          refine ⟨fun h => ?_, fun h => by cases h⟩
          obtain rfl := Option.some.inj h
          cases hy
        · rw [List.getElem?_eq_none (by simpa using hgt), List.getElem?_eq_none hgt.le]
      · rw [List.forall_mem_append, List.forall_mem_singleton]
        exact ⟨hinv.ok, fun h => by rcases h with h | h <;> cases h⟩
  | thread t =>
    unfold next at hstep
    cases hx : s.threads[t]? with
    | none => simp [hx] at hstep
    | some x =>
      simp only [hx] at hstep
      obtain ⟨⟨x', o', g', lines⟩, hx', rfl⟩ := Option.map_eq_some_iff.mp hstep
      have hlt : t < s.threads.length := (List.getElem?_eq_some_iff.mp hx).1
      have hok := hinv.ok x (List.mem_of_getElem? hx)
      refine ⟨hinv.lock.move hx (List.getElem?_set_self hlt) (fun u hu z _ => ?_)
        (Thread.step_move hok hx'), fun y hy => ?_⟩
      · show (s.threads.set t x')[u]? = some z ↔ s.threads[u]? = some z
        rw [List.getElem?_set_ne hu.symm]
      · rcases List.mem_or_eq_of_mem_set hy with hold | rfl
        · exact hinv.ok y hold
        · exact hok.step hx'

theorem inv_of_run {roles : List Role} {h : List (Event RwLock Label)} {s : RwLock}
    (hrun : (program roles).Run h s) : Inv s := by
  refine hrun.invariant (I := Inv) ?_ fun s l s' _ hstep hinv => hinv.step hstep
  rintro s rfl
  exact inv_start roles

/-- **The lines count.**  In every run each line on the terminal shows how many writes were
printed before it; no two threads, readers or not, are inside the lock at the same time; and
while nobody is, the counter is the number of writes printed. -/
theorem lines_count (roles : List Role) (h : List (Event RwLock Label)) (s : RwLock)
    (hrun : (program roles).Run h s) :
    Counts s.stdout ∧
    (∀ (t u : ℕ) (x y : Thread), s.threads[t]? = some x → s.threads[u]? = some y →
      x.pc.locks = true → y.pc.locks = true → t = u) ∧
    (s.rwlock = none → s.gNcount = .ofNat 32 (writes s.stdout)) := by
  have hinv := inv_of_run hrun
  refine ⟨?_, fun t u x y hx hy hxh hyh => hinv.lock.unique hx hxh hy hyh,
    fun hfree => (hinv.lock.free hfree).2⟩
  cases hlock : s.rwlock with
  | none => exact (hinv.lock.free hlock).1
  | some t =>
    obtain ⟨x, hx, hh⟩ := (hinv.lock.owner_iff t).1 hlock
    have hin := hinv.lock.inside t x hx hh
    obtain ⟨role, pc, t, arg⟩ := x
    cases pc <;> cases role
    case print.writer => exact hin.1
    case usleep.writer | usleep.reader | args.writer | print.reader => exact hin.1.1
    case lock.writer | lock.reader | sleep.writer | sleep.reader => cases hh
    all_goals exact hin.1

/-- A writer and a reader take turns. -/
theorem lines_count_turns : ∃ h s, (program [.writer, .reader]).Run h s ∧
    s.stdout = [.read 1 0, .write 0 0 1, .read 1 1] ∧ Counts s.stdout := by
  obtain ⟨h, s, hrun, htest⟩ := System.exists_run_of_exec (start [.writer, .reader]) next
    ([.create, .create] ++ List.replicate 4 (.thread 1) ++ List.replicate 6 (.thread 0) ++
      List.replicate 5 (.thread 1))
    (fun _ s => decide (s.stdout = [.read 1 0, .write 0 0 1, .read 1 1])) (by decide +kernel)
  exact ⟨h, s, hrun, of_decide_eq_true htest, (lines_count _ h s hrun).1⟩

end RwLock

end LinuxExercise.ThreadSync
