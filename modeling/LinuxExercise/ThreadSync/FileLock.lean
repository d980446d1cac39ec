import LinuxExercise.Framework.Monitor
import LinuxExercise.Framework.Termination
import LinuxExercise.Framework.Threads

/-!
# The record lock on `fcntl.tmp` (`010_thread_sync/07flock.c`)

Any number of processes run the program on one terminal.  Each writes the same 13 bytes to the
file before it asks for the lock, and prints a line when it has the lock and one after it has
given it back.

The lock excludes (`flock_excludes`), but the lines do not show it: the second line is printed
after the unlock, so the processes can write their lines in every order in which each of them
prints its first line first (`flock_outputs`).

No result of `write` or `fcntl` is looked at: a `write` may be short or fail, and a process whose
lock is refused goes on without it.
-/

namespace LinuxExercise.ThreadSync

namespace FileLock

/-- Where a process is in `main`. -/
inductive Pc
  /-- `open("fcntl.tmp", O_CREAT | O_RDWR, 0777)` -/
  | open
  /-- `write(fd, "hello world!", sizeof("hello world!"))` -/
  | write
  /-- `fcntl(fd, F_SETLKW, &f_lock)` with `F_WRLCK` -/
  | lock
  /-- `printf` of the first line -/
  | printLocked
  /-- `sleep(10)` -/
  | sleep
  /-- `fcntl(fd, F_SETLKW, &f_lock)` with `F_UNLCK` -/
  | unlock
  /-- `printf` of the second line -/
  | printUnlocked
  /-- `close(fd)` -/
  | close
  | exited
  deriving DecidableEq, Repr

structure Process where
  pc : Pc
  /-- History: the lock was granted. -/
  granted : Bool
  deriving DecidableEq, Repr

/-- The two lines. -/
inductive Line
  /-- `上锁` -/
  | locked
  /-- `解锁` -/
  | unlocked
  deriving DecidableEq, Repr

/-- `"hello world!"` with the byte at its end. -/
def helloWorld : List UInt8 := [104, 101, 108, 108, 111, 32, 119, 111, 114, 108, 100, 33, 0]

end FileLock

open FileLock in
/-- The file, its lock, and the processes on one terminal. -/
structure FileLock where
  file : List UInt8
  /-- The process that has the whole file locked. -/
  lock : Option ℕ
  processes : List Process
  /-- The lines on the terminal, with the process that printed them. -/
  stdout : List (ℕ × Line)
  deriving DecidableEq, Repr

namespace FileLock

/-- The file after a `write` of `k` bytes at its beginning. -/
def writeFile (k : ℕ) (file : List UInt8) : List UInt8 := helloWorld.take k ++ file.drop k

/-- What an unlock or a `close` by process `me` leaves of the lock. -/
def releaseLock (me : ℕ) (lock : Option ℕ) : Option ℕ := if lock = some me then none else lock

/-- A statement of process `me`, where the call returns `ret`: the process, the file, the lock
and what is printed. -/
def Process.step (me : ℕ) (ret : ℤ) (p : Process) (file : List UInt8) (lock : Option ℕ) :
    Option (Process × List UInt8 × Option ℕ × List Line) :=
  match p.pc with
  | .open => some ({ p with pc := if ret < 0 then .exited else .write }, file, lock, [])
  | .write =>
    if ret ≤ helloWorld.length then
      some ({ p with pc := .lock }, writeFile ret.toNat file, lock, [])
    else none
  | .lock =>
    if ret < 0 then some (⟨.printLocked, false⟩, file, lock, [])
    else if lock = none then some (⟨.printLocked, true⟩, file, some me, [])
    else none
  | .printLocked => some ({ p with pc := .sleep }, file, lock, [.locked])
  | .sleep => some ({ p with pc := .unlock }, file, lock, [])
  | .unlock => some ({ p with pc := .printUnlocked }, file, releaseLock me lock, [])
  | .printUnlocked => some ({ p with pc := .close }, file, lock, [.unlocked])
  | .close => some ({ p with pc := .exited }, file, releaseLock me lock, [])
  | .exited => none

/-- Which process steps, and what its call returns. -/
structure Label where
  process : ℕ
  ret : ℤ
  deriving DecidableEq, Repr

def next (s : FileLock) (l : Label) : Option FileLock :=
  match s.processes[l.process]? with
  | none => none
  | some p => (p.step l.process l.ret s.file s.lock).map fun (p', file, lock, lines) =>
    { file := file
      lock := lock
      processes := s.processes.set l.process p'
      stdout := s.stdout ++ lines.map fun line => (l.process, line) }

/-- `n` processes, with what is in the file at first, if there is one. -/
def start (n : ℕ) (file : List UInt8) : FileLock where
  file := file
  lock := none
  processes := List.replicate n ⟨.open, false⟩
  stdout := []

def program (n : ℕ) (file : List UInt8) : System FileLock Label := .ofStep (start n file) next

/-- Between the two calls of `fcntl`. -/
def Pc.critical : Pc → Bool
  | .printLocked | .sleep | .unlock => true
  | _ => false

/-- The process has been given the lock and has not given it back. -/
def Process.holds (p : Process) : Bool := p.granted && p.pc.critical

/-- What a step does, with the process that takes it. -/
theorem next_cases {s s' : FileLock} {l : Label} (h : next s l = some s') :
    ∃ p p' file lock lines, s.processes[l.process]? = some p ∧
      p.step l.process l.ret s.file s.lock = some (p', file, lock, lines) ∧
      s' = ⟨file, lock, s.processes.set l.process p',
        s.stdout ++ lines.map fun line => (l.process, line)⟩ := by
  unfold next at h
  split at h
  · cases h
  · next p hp =>
    obtain ⟨⟨p', file, lock, lines⟩, hstep, rfl⟩ := Option.map_eq_some_iff.mp h
    exact ⟨p, p', file, lock, lines, hp, hstep, rfl⟩

/-! ## The lock -/

/-- The lock protects nothing. -/
def monitor : Monitor Process Unit where
  holds := Process.holds
  free _ := True
  inside _ _ := True

def view (s : FileLock) : Monitor.View ℕ Process Unit := ⟨s.lock, (s.processes[·]?), ()⟩

/-- A process that does not have the lock gives nothing back. -/
theorem releaseLock_discipline {me : ℕ} {lock : Option ℕ} {held held' : Bool}
    (hlock : lock = some me ↔ held = true) (hout : held' = false) :
    Monitor.Discipline me lock held (releaseLock me lock) held' := by
  subst hout
  unfold releaseLock
  cases held with
  | true =>
    rw [if_pos (hlock.mpr rfl)]
    exact .release
  | false =>
    rw [if_neg (by simp [hlock])]
    exact .keep

theorem Process.step_discipline {me : ℕ} {ret : ℤ} {p p' : Process} {file file' : List UInt8}
    {lock lock' : Option ℕ} {lines : List Line} (hlock : lock = some me ↔ p.holds = true)
    (h : p.step me ret file lock = some (p', file', lock', lines)) :
    Monitor.Discipline me lock p.holds lock' p'.holds := by
  obtain ⟨pc, granted⟩ := p
  have hout : pc.critical = false → ∀ pc', pc'.critical = false →
      Monitor.Discipline me lock (Process.holds ⟨pc, granted⟩) lock
        (Process.holds ⟨pc', granted⟩) := by
    intro hpc pc' hpc'
    simp only [Process.holds, hpc, hpc', Bool.and_false]
    exact .keep
  cases pc <;> simp only [Process.step] at h
  case «open» =>
    cases h
    exact hout rfl _ (by split <;> rfl)
  case write =>
    split at h
    · cases h
      exact hout rfl _ rfl
    · cases h
  case lock =>
    have hnot : Process.holds ⟨.lock, granted⟩ = false := Bool.and_false _
    rw [hnot]
    split at h
    · cases h
      exact .keep
    split at h
    · next hfree =>
      cases h
      rw [hfree]
      exact .acquire
    · cases h
  case printLocked | sleep =>
    cases h
    exact .keep
  case unlock | close =>
    cases h
    exact releaseLock_discipline hlock (Bool.and_false granted)
  case printUnlocked =>
    cases h
    exact hout rfl _ rfl
  case exited => cases h

/-- Mutual exclusion is kept. -/
theorem inv_step {s s' : FileLock} {l : Label} (hinv : monitor.Inv (view s))
    (hstep : next s l = some s') : monitor.Inv (view s') := by
  obtain ⟨p, p', file, lock, lines, hp, hp', rfl⟩ := next_cases hstep
  have hlt : l.process < s.processes.length := (List.getElem?_eq_some_iff.mp hp).1
  have hlock : s.lock = some l.process ↔ p.holds = true := by
    refine (hinv.owner_iff l.process).trans ⟨?_, fun hholds => ⟨p, hp, hholds⟩⟩
    rintro ⟨q, hq, hholds⟩
    obtain rfl := Option.some.inj (hp.symm.trans hq)
    exact hholds
  refine hinv.move hp (List.getElem?_set_self hlt) (fun u hu z _ => ?_)
    (.of_discipline (Process.step_discipline hlock hp') ?_)
  · show (s.processes.set l.process p')[u]? = some z ↔ s.processes[u]? = some z
    rw [List.getElem?_set_ne hu.symm]
  · unfold Monitor.Owes
    split
    · exact ⟨fun _ => trivial, fun _ _ _ => trivial⟩
    all_goals exact fun _ => trivial

/-! ## The file -/

theorem writeFile_writeFile (j k : ℕ) (hk : k ≤ helloWorld.length) (file : List UInt8) :
    writeFile j (writeFile k file) = writeFile (max j k) file := by
  have hlen : (helloWorld.take k).length = k := List.length_take_of_le hk
  unfold writeFile
  rcases le_total j k with hle | hle
  · have htake : helloWorld.take j = (helloWorld.take k ++ file.drop k).take j := by
      rw [List.take_append_of_le_length (by omega), List.take_take, min_eq_left hle]
    rw [max_eq_right hle, htake, List.take_append_drop]
  · rw [max_eq_left hle, List.drop_append, List.drop_eq_nil_of_le (by omega), List.nil_append,
      hlen, List.drop_drop, Nat.add_sub_cancel' hle]

/-- The file begins with some bytes of the text, and goes on as it was. -/
theorem Process.step_file {me : ℕ} {ret : ℤ} {p p' : Process} {file file' : List UInt8}
    {lock lock' : Option ℕ} {lines : List Line}
    (h : p.step me ret file lock = some (p', file', lock', lines)) :
    file' = file ∨ ∃ k ≤ helloWorld.length, file' = writeFile k file := by
  obtain ⟨pc, granted⟩ := p
  cases pc <;> simp only [Process.step] at h
  case write =>
    split at h
    · next hle =>
      cases h
      exact .inr ⟨ret.toNat, by omega, rfl⟩
    · cases h
  case lock =>
    split at h
    · cases h
      exact .inl rfl
    split at h
    · cases h
      exact .inl rfl
    · cases h
  case exited => cases h
  all_goals
    cases h
    exact .inl rfl

/-! ## Everybody gets the lock in the end -/

/-- The statements a process has left. -/
def Process.rank (p : Process) : ℕ :=
  match p.pc with
  | .open => 8
  | .write => 7
  | .lock => 6
  | .printLocked => 5
  | .sleep => 4
  | .unlock => 3
  | .printUnlocked => 2
  | .close => 1
  | .exited => 0

def rank (s : FileLock) : ℕ := (s.processes.map Process.rank).sum

theorem rank_lt {s s' : FileLock} {l : Label} (hstep : next s l = some s') : s'.rank < s.rank := by
  obtain ⟨p, p', file, lock, lines, hp, hp', rfl⟩ := next_cases hstep
  have hsum := sum_map_set_add (f := Process.rank) (b := p') hp
  have hlt : p'.rank < p.rank := by
    obtain ⟨pc, granted⟩ := p
    cases pc <;> simp only [Process.step] at hp'
    case «open» =>
      cases hp'
      simp only [Process.rank]
      split_ifs <;> simp
    case write =>
      split at hp'
      · cases hp'
        simp [Process.rank]
      · cases hp'
    case lock =>
      split at hp'
      · cases hp'
        simp [Process.rank]
      split at hp'
      · cases hp'
        simp [Process.rank]
      · cases hp'
    case exited => cases hp'
    all_goals
      cases hp'
      simp [Process.rank]
  simp only [rank]
  omega

/-- No lock is refused. -/
def isGranting (e : Event FileLock Label) : Prop :=
  ∀ p, e.pre.processes[e.label.process]? = some p → p.pc = .lock → 0 ≤ e.label.ret

/-- A process can go on unless it has exited or waits for the lock. -/
theorem Process.exists_step (me : ℕ) {p : Process} (file : List UInt8) {lock : Option ℕ}
    (hp : p.pc ≠ .exited) (hlock : p.pc = .lock → lock = none) :
    ∃ r, p.step me 0 file lock = some r := by
  obtain ⟨pc, granted⟩ := p
  cases pc with
  | lock =>
    obtain rfl := hlock rfl
    exact ⟨_, rfl⟩
  | exited => exact absurd rfl hp
  | «open» | write | printLocked | sleep | unlock | printUnlocked | close => exact ⟨_, rfl⟩

/-- Where nobody can go on everybody has exited. -/
theorem all_exited {s : FileLock} (hinv : monitor.Inv (view s))
    (hstuck : ∀ l s', next s l = some s' → ¬ isGranting ⟨s, l, s'⟩) :
    ∀ p ∈ s.processes, p.pc = .exited := by
  have hgoes : ∀ (i : ℕ) (p : Process), s.processes[i]? = some p →
      p.pc ≠ .exited → p.pc = .lock ∧ s.lock ≠ none := by
    intro i p hp hpc
    by_contra hnot
    rw [not_and, not_not] at hnot
    obtain ⟨⟨p', file, lock, lines⟩, hp'⟩ := Process.exists_step i s.file hpc hnot
    have hstep : next s ⟨i, 0⟩ = some ⟨file, lock, s.processes.set i p',
        s.stdout ++ lines.map fun line => (i, line)⟩ := by
      simp only [next, hp, hp', Option.map_some]
    exact hstuck _ _ hstep fun _ _ _ => le_rfl
  -- The one that has the lock could go on.
  have hfree : s.lock = none := by
    by_contra hheld
    obtain ⟨i, hi⟩ := Option.ne_none_iff_exists'.mp hheld
    obtain ⟨p, hp, hholds⟩ := (hinv.owner_iff i).mp hi
    have hcritical : p.pc.critical = true := by
      have hboth : (p.granted && p.pc.critical) = true := hholds
      exact (Bool.and_eq_true_iff.mp hboth).2
    have hpc : p.pc ≠ .exited := by
      intro hpc
      rw [hpc] at hcritical
      cases hcritical
    rw [(hgoes i p hp hpc).1] at hcritical
    cases hcritical
  intro p hmem
  obtain ⟨i, hi⟩ := List.mem_iff_getElem?.mp hmem
  by_contra hpc
  exact (hgoes i p hi hpc).2 hfree

/-- **The lock excludes.**  In every run two processes that were given the lock and have not
given it back are the same; the file is what it was, with a beginning of the text over it; and
as long as no lock is refused everybody exits, after a bounded number of steps in whatever
order. -/
theorem flock_excludes (n : ℕ) (file : List UInt8) (h : List (Event FileLock Label)) (s : FileLock)
    (hrun : (program n file).Run h s) :
    (∀ (i j : ℕ) (p q : Process), s.processes[i]? = some p → s.processes[j]? = some q →
      p.holds = true → q.holds = true → i = j) ∧
    (∃ k ≤ helloWorld.length, s.file = writeFile k file) ∧
    (program n file).Completes isGranting (fun _ s' => ∀ p ∈ s'.processes, p.pc = .exited) s := by
  have hinv : monitor.Inv (view s) := by
    refine hrun.invariant (I := fun s => monitor.Inv (view s)) ?_
      fun s l s' _ hstep hinv => inv_step hinv hstep
    rintro s rfl
    refine .of_nobody rfl (fun u z hz => ?_) trivial
    rw [List.eq_of_mem_replicate (List.mem_of_getElem? hz)]
    rfl
  refine ⟨fun i j p q hp hq hpi hqj => hinv.unique hp hpi hq hqj, ?_, ?_⟩
  · refine hrun.invariant (I := fun s => ∃ k ≤ helloWorld.length, s.file = writeFile k file) ?_ ?_
    · rintro s rfl
      exact ⟨0, Nat.zero_le _, rfl⟩
    · rintro s l s' - hstep ⟨k, hk, hfile⟩
      obtain ⟨p, p', file', lock, lines, -, hp', rfl⟩ := next_cases hstep
      rcases Process.step_file hp' with rfl | ⟨j, hj, rfl⟩
      · exact ⟨k, hk, hfile⟩
      · refine ⟨max j k, max_le hj hk, ?_⟩
        simp only [hfile]
        exact writeFile_writeFile j k hk file
  · exact System.completes_of_rank rank (I := fun s => monitor.Inv (view s))
      (fun s l s' hstep _ hinv => inv_step hinv hstep) (fun s l s' hstep _ _ => rank_lt hstep)
      (fun h' s' _ hinv hstuck => all_exited hinv hstuck) hinv

/-- The second process waits while the first sleeps with the lock. -/
theorem flock_excludes_two : ∃ h s, (program 2 []).Run h s ∧
    s.processes = [⟨.sleep, true⟩, ⟨.lock, false⟩] ∧
    (program 2 []).Completes isGranting (fun _ s' => ∀ p ∈ s'.processes, p.pc = .exited) s := by
  obtain ⟨h, s, hrun, hP⟩ := System.exists_run_of_exec (start 2 []) next
    [⟨0, 3⟩, ⟨1, 3⟩, ⟨0, 13⟩, ⟨1, 4⟩, ⟨0, 0⟩, ⟨0, 7⟩]
    (fun _ s => decide (s.processes = [⟨.sleep, true⟩, ⟨.lock, false⟩])) (by decide +kernel)
  exact ⟨h, s, hrun, of_decide_eq_true hP, (flock_excludes 2 [] h s hrun).2.2⟩

/-! ## The lines -/

/-- The lines that process `i` has printed. -/
def linesOf (i : ℕ) (w : List (ℕ × Line)) : List Line := (w.filter (·.1 = i)).map Prod.snd

theorem linesOf_append_map (i me : ℕ) (w : List (ℕ × Line)) (lines : List Line) :
    linesOf i (w ++ lines.map fun line => (me, line)) =
      linesOf i w ++ if me = i then lines else [] := by
  unfold linesOf
  rw [List.filter_append, List.map_append, List.filter_map, List.map_map]
  by_cases hi : me = i
  · simp [hi, Function.comp_def]
  · simp [hi, Function.comp_def]

theorem linesOf_snoc (i me : ℕ) (w : List (ℕ × Line)) (line : Line) :
    linesOf i (w ++ [(me, line)]) = linesOf i w ++ if me = i then [line] else [] :=
  linesOf_append_map i me w [line]

/-- What a process at `pc` has printed. -/
def Printed (pc : Pc) (lines : List Line) : Prop :=
  match pc with
  | .open | .write | .lock | .printLocked => lines = []
  | .sleep | .unlock | .printUnlocked => lines = [.locked]
  | .close => lines = [.locked, .unlocked]
  | .exited => lines = [] ∨ lines = [.locked, .unlocked]

theorem Process.step_printed {me : ℕ} {ret : ℤ} {p p' : Process} {file file' : List UInt8}
    {lock lock' : Option ℕ} {lines old : List Line} (hold : Printed p.pc old)
    (h : p.step me ret file lock = some (p', file', lock', lines)) :
    Printed p'.pc (old ++ lines) := by
  obtain ⟨pc, granted⟩ := p
  cases pc <;> simp only [Process.step] at h
  case «open» =>
    cases h
    have hnil : old = [] := hold
    subst hnil
    simp only
    split
    · exact .inl rfl
    · rfl
  case write =>
    split at h
    · cases h
      exact (List.append_nil old).trans hold
    · cases h
  case lock =>
    split at h
    · cases h
      exact (List.append_nil old).trans hold
    split at h
    · cases h
      exact (List.append_nil old).trans hold
    · cases h
  case printLocked | printUnlocked =>
    cases h
    exact congrArg (· ++ _) hold
  case sleep | unlock =>
    cases h
    exact (List.append_nil old).trans hold
  case close =>
    cases h
    exact .inr ((List.append_nil old).trans hold)
  case exited => cases h

/-- The lines of each process are those that its place accounts for. -/
def Traced (n : ℕ) (s : FileLock) : Prop :=
  s.processes.length = n ∧ (∀ i p, s.processes[i]? = some p → Printed p.pc (linesOf i s.stdout)) ∧
    ∀ i, n ≤ i → linesOf i s.stdout = []

theorem traced_of_run {n : ℕ} {file : List UInt8} {h : List (Event FileLock Label)} {s : FileLock}
    (hrun : (program n file).Run h s) : Traced n s := by
  refine hrun.invariant (I := Traced n) ?_ ?_
  · rintro s rfl
    refine ⟨List.length_replicate, fun i p hp => ?_, fun i _ => rfl⟩
    rw [List.eq_of_mem_replicate (List.mem_of_getElem? hp)]
    rfl
  · rintro s l s' - hstep ⟨hlength, hprinted, hnone⟩
    obtain ⟨p, p', file', lock, lines, hp, hp', rfl⟩ := next_cases hstep
    have hlt : l.process < s.processes.length := (List.getElem?_eq_some_iff.mp hp).1
    refine ⟨List.length_set.trans hlength, fun i q hq => ?_, fun i hi => ?_⟩
    · simp only [linesOf_append_map]
      by_cases hne : l.process = i
      · subst hne
        obtain rfl := Option.some.inj ((List.getElem?_set_self hlt).symm.trans hq)
        rw [if_pos rfl]
        exact Process.step_printed (hprinted _ p hp) hp'
      · rw [if_neg hne, List.append_nil]
        exact hprinted i q ((List.getElem?_set_ne hne).symm.trans hq)
    · simp only [linesOf_append_map]
      rw [if_neg (by omega), List.append_nil, hnone i hi]

/-! ## Every order -/

/-- A process is alone for a while: the others stay where they are in `s`. -/
def alone (s : FileLock) (i : ℕ) (p : Process) (file : List UInt8) (lock : Option ℕ)
    (out : List (ℕ × Line)) : FileLock :=
  ⟨file, lock, s.processes.set i p, out⟩

/-- Steps of which none is a lock that is refused. -/
def Leads (n : ℕ) (init : List UInt8) (s s' : FileLock) : Prop :=
  ∃ h', (program n init).Continues isGranting s h' s'

theorem Leads.trans {n : ℕ} {init : List UInt8} {s₁ s₂ s₃ : FileLock} (h₁ : Leads n init s₁ s₂)
    (h₂ : Leads n init s₂ s₃) : Leads n init s₁ s₃ := by
  obtain ⟨_, hcont₁⟩ := h₁
  obtain ⟨_, hcont₂⟩ := h₂
  exact ⟨_, hcont₁.append hcont₂⟩

section Alone

variable {n i : ℕ} {init : List UInt8} {s : FileLock}

theorem alone_self {p : Process} (hp : s.processes[i]? = some p) :
    alone s i p s.file s.lock s.stdout = s := by
  obtain ⟨hlt, rfl⟩ := List.getElem?_eq_some_iff.mp hp
  rw [alone, List.set_getElem_self]

theorem alone_step (hi : i < s.processes.length) {p p' : Process} {file file' : List UInt8}
    {lock lock' : Option ℕ} {out : List (ℕ × Line)} (lines : List Line) (ret : ℤ)
    (hgranted : p.pc = .lock → 0 ≤ ret)
    (hstep : p.step i ret file lock = some (p', file', lock', lines)) :
    Leads n init (alone s i p file lock out)
      (alone s i p' file' lock' (out ++ lines.map fun line => (i, line))) := by
  have hself : (s.processes.set i p)[i]? = some p := List.getElem?_set_self hi
  have hnext : next (alone s i p file lock out) ⟨i, ret⟩ =
      some (alone s i p' file' lock' (out ++ lines.map fun line => (i, line))) := by
    simp only [next, alone, hself, hstep, Option.map_some, List.set_set]
  refine ⟨_, System.Continues.refl.tail hnext fun q hq hpc => ?_⟩
  obtain rfl := Option.some.inj (hself.symm.trans hq)
  exact hgranted hpc

theorem alone_quiet (hi : i < s.processes.length) {p p' : Process} {file file' : List UInt8}
    {lock lock' : Option ℕ} {out : List (ℕ × Line)} (ret : ℤ) (hgranted : p.pc = .lock → 0 ≤ ret)
    (hstep : p.step i ret file lock = some (p', file', lock', [])) :
    Leads n init (alone s i p file lock out) (alone s i p' file' lock' out) := by
  simpa using alone_step hi [] ret hgranted hstep

/-- A process takes the lock, prints its first line and gives the lock back. -/
theorem leads_locked {p : Process} (hp : s.processes[i]? = some p) (hpc : p.pc = .open)
    (hfree : s.lock = none) :
    ∃ s', Leads n init s s' ∧ s'.lock = none ∧ s'.stdout = s.stdout ++ [(i, .locked)] ∧
      s'.processes = s.processes.set i ⟨.printUnlocked, true⟩ := by
  have hi : i < s.processes.length := (List.getElem?_eq_some_iff.mp hp).1
  obtain ⟨_, granted⟩ := p
  obtain rfl := hpc
  have hopen : Leads n init (alone s i ⟨.open, granted⟩ s.file none s.stdout)
    (alone s i ⟨.write, granted⟩ s.file none s.stdout) := alone_quiet hi 0 nofun rfl
  have hwrite : Leads n init (alone s i ⟨.write, granted⟩ s.file none s.stdout)
    (alone s i ⟨.lock, granted⟩ (writeFile 13 s.file) none s.stdout) := alone_quiet hi 13 nofun rfl
  have hlock : Leads n init (alone s i ⟨.lock, granted⟩ (writeFile 13 s.file) none s.stdout)
    (alone s i ⟨.printLocked, true⟩ (writeFile 13 s.file) (some i) s.stdout) :=
    alone_quiet hi 0 (fun _ => le_rfl) rfl
  have hprint : Leads n init
    (alone s i ⟨.printLocked, true⟩ (writeFile 13 s.file) (some i) s.stdout)
    (alone s i ⟨.sleep, true⟩ (writeFile 13 s.file) (some i) (s.stdout ++ [(i, .locked)])) :=
    alone_step hi [.locked] 0 nofun rfl
  have hsleep : Leads n init
    (alone s i ⟨.sleep, true⟩ (writeFile 13 s.file) (some i) (s.stdout ++ [(i, .locked)]))
    (alone s i ⟨.unlock, true⟩ (writeFile 13 s.file) (some i) (s.stdout ++ [(i, .locked)])) :=
    alone_quiet hi 0 nofun rfl
  have hunlock : Leads n init
    (alone s i ⟨.unlock, true⟩ (writeFile 13 s.file) (some i) (s.stdout ++ [(i, .locked)]))
    (alone s i ⟨.printUnlocked, true⟩ (writeFile 13 s.file) none (s.stdout ++ [(i, .locked)])) :=
    alone_quiet hi 0 nofun (by simp [Process.step, releaseLock])
  have hself := alone_self hp
  rw [hfree] at hself
  rw [hself] at hopen
  exact ⟨_, hopen.trans (hwrite.trans (hlock.trans (hprint.trans (hsleep.trans hunlock)))), rfl,
    rfl, rfl⟩

/-- It prints its second line and exits. -/
theorem leads_unlocked {p : Process} (hp : s.processes[i]? = some p) (hpc : p.pc = .printUnlocked)
    (hfree : s.lock = none) :
    ∃ s' granted, Leads n init s s' ∧ s'.lock = none ∧ s'.stdout = s.stdout ++ [(i, .unlocked)] ∧
      s'.processes = s.processes.set i ⟨.exited, granted⟩ := by
  have hi : i < s.processes.length := (List.getElem?_eq_some_iff.mp hp).1
  obtain ⟨_, granted⟩ := p
  obtain rfl := hpc
  have hprint : Leads n init (alone s i ⟨.printUnlocked, granted⟩ s.file none s.stdout)
    (alone s i ⟨.close, granted⟩ s.file none (s.stdout ++ [(i, .unlocked)])) :=
    alone_step hi [.unlocked] 0 nofun rfl
  have hclose : Leads n init
    (alone s i ⟨.close, granted⟩ s.file none (s.stdout ++ [(i, .unlocked)]))
    (alone s i ⟨.exited, granted⟩ s.file none (s.stdout ++ [(i, .unlocked)])) :=
    alone_quiet hi 0 nofun (by simp [Process.step, releaseLock])
  have hself := alone_self hp
  rw [hfree] at hself
  rw [hself] at hprint
  exact ⟨_, granted, hprint.trans hclose, rfl, rfl, rfl⟩

end Alone

/-- Each process has printed both of its lines in their order, or none. -/
def Ordered (n : ℕ) (w : List (ℕ × Line)) : Prop :=
  ∀ i, linesOf i w = [] ∨ i < n ∧ linesOf i w = [.locked, .unlocked]

/-- So it is for a beginning of the lines. -/
def Begun (n : ℕ) (w : List (ℕ × Line)) : Prop :=
  ∀ i, linesOf i w = [] ∨ i < n ∧ (linesOf i w = [.locked] ∨ linesOf i w = [.locked, .unlocked])

/-- Where a process that has printed `lines` may be. -/
def place : List Line → Pc
  | [] => .open
  | [_] => .printUnlocked
  | _ => .exited

/-- The last line of a beginning is the next one of its process. -/
theorem Begun.of_snoc {n j : ℕ} {w : List (ℕ × Line)} {line : Line}
    (h : Begun n (w ++ [(j, line)])) :
    Begun n w ∧ j < n ∧
      (linesOf j w = [] ∧ line = .locked ∨ linesOf j w = [.locked] ∧ line = .unlocked) := by
  have hlast : j < n ∧
      (linesOf j w = [] ∧ line = .locked ∨ linesOf j w = [.locked] ∧ line = .unlocked) := by
    have hj := h j
    rw [linesOf_snoc, if_pos rfl] at hj
    rcases hj with hnil | ⟨hlt, hone | htwo⟩
    · simp at hnil
    · obtain ⟨hold, hline⟩ := List.append_inj' (hone.trans (List.nil_append _).symm) rfl
      exact ⟨hlt, .inl ⟨hold, List.singleton_inj.mp hline⟩⟩
    · have hsplit : linesOf j w ++ [line] = [.locked] ++ [.unlocked] := htwo
      obtain ⟨hold, hline⟩ := List.append_inj' hsplit rfl
      exact ⟨hlt, .inr ⟨hold, List.singleton_inj.mp hline⟩⟩
  refine ⟨fun i => ?_, hlast⟩
  by_cases hi : j = i
  · subst hi
    rcases hlast with ⟨hlt, ⟨hold, -⟩ | ⟨hold, -⟩⟩
    · exact .inl hold
    · exact .inr ⟨hlt, .inl hold⟩
  · have hsame := h i
    rwa [linesOf_snoc, if_neg hi, List.append_nil] at hsame

/-- The processes print the lines in this order, each having given the lock back before the next
one takes it. -/
theorem exists_leads {n : ℕ} (file : List UInt8) (w : List (ℕ × Line)) (hw : Begun n w) :
    ∃ s, Leads n file (start n file) s ∧ s.lock = none ∧ s.stdout = w ∧
      s.processes.length = n ∧
      ∀ (i : ℕ) (p : Process), s.processes[i]? = some p → p.pc = place (linesOf i w) := by
  induction w using List.reverseRecOn with
  | nil =>
    refine ⟨start n file, ⟨_, .refl⟩, rfl, rfl, List.length_replicate, fun i p hp => ?_⟩
    rw [List.eq_of_mem_replicate (List.mem_of_getElem? hp)]
    rfl
  | append_singleton w x ih =>
    obtain ⟨j, line⟩ := x
    obtain ⟨hbegun, hlt, hcases⟩ := hw.of_snoc
    obtain ⟨s, hs, hfree, hout, hlength, hplace⟩ := ih hbegun
    obtain ⟨p, hj⟩ : ∃ p, s.processes[j]? = some p :=
      ⟨_, List.getElem?_eq_getElem (hlength ▸ hlt)⟩
    -- What is left to say of the state after the next line.
    have hnext : ∀ (s' : FileLock) (p' : Process), Leads n file s s' → s'.lock = none →
        s'.stdout = s.stdout ++ [(j, line)] → s'.processes = s.processes.set j p' →
        p'.pc = place (linesOf j w ++ [line]) →
        ∃ s', Leads n file (start n file) s' ∧ s'.lock = none ∧ s'.stdout = w ++ [(j, line)] ∧
          s'.processes.length = n ∧ ∀ (i : ℕ) (p : Process), s'.processes[i]? = some p →
            p.pc = place (linesOf i (w ++ [(j, line)])) := by
      intro s' p' hs' hfree' hout' hset hp'
      refine ⟨s', hs.trans hs', hfree', by rw [hout', hout], ?_, fun i p hp => ?_⟩
      · rw [hset, List.length_set, hlength]
      · rw [hset] at hp
        rw [linesOf_snoc]
        by_cases hi : j = i
        · subst hi
          rw [List.getElem?_set_self (hlength ▸ hlt)] at hp
          obtain rfl := Option.some.inj hp
          rw [if_pos rfl, hp']
        · rw [List.getElem?_set_ne hi] at hp
          rw [if_neg hi, List.append_nil]
          exact hplace i p hp
    rcases hcases with ⟨hold, rfl⟩ | ⟨hold, rfl⟩
    · obtain ⟨s', hs', hfree', hout', hset⟩ :=
        leads_locked hj (by rw [hplace j _ hj, hold]; rfl) hfree
      exact hnext s' _ hs' hfree' hout' hset (by rw [hold]; rfl)
    · obtain ⟨s', granted, hs', hfree', hout', hset⟩ :=
        leads_unlocked hj (by rw [hplace j _ hj, hold]; rfl) hfree
      exact hnext s' _ hs' hfree' hout' hset (by rw [hold]; rfl)

/-- `open` fails. -/
def failsOpen (e : Event FileLock Label) : Prop :=
  e.label.ret < 0 ∧ ∃ p, e.pre.processes[e.label.process]? = some p ∧ p.pc = .open

/-- The processes that have not begun can all fail to. -/
theorem leads_exited (n : ℕ) (file : List UInt8) {s : FileLock}
    (hs : ∀ p ∈ s.processes, p.pc = .open ∨ p.pc = .exited) :
    ∃ s', Leads n file s s' ∧ s'.stdout = s.stdout ∧ ∀ p ∈ s'.processes, p.pc = .exited := by
  obtain ⟨h', s', hcont, hstuck⟩ := System.exists_stuck_of_rank (M := program n file)
    (Q := failsOpen) rank (I := fun _ => True) (fun _ _ _ _ _ _ => trivial)
    (fun s l s' hstep _ _ => rank_lt hstep) (s := s) trivial
  have hkeep : s'.stdout = s.stdout ∧ ∀ p ∈ s'.processes, p.pc = .open ∨ p.pc = .exited := by
    refine hcont.invariant (I := fun s' => s'.stdout = s.stdout ∧
      ∀ p ∈ s'.processes, p.pc = .open ∨ p.pc = .exited) ?_ ⟨rfl, hs⟩
    rintro s₁ l s₂ hstep ⟨hret, p, hp, hpc⟩ ⟨hout, hpcs⟩
    obtain ⟨q, q', file', lock, lines, hq, hq', rfl⟩ := next_cases hstep
    obtain rfl := Option.some.inj (hp.symm.trans hq)
    simp only at hret
    simp only [Process.step, hpc, if_pos hret] at hq'
    cases hq'
    refine ⟨by simpa using hout, fun q hq => ?_⟩
    rcases List.mem_or_eq_of_mem_set hq with hold | rfl
    · exact hpcs q hold
    · exact .inr rfl
  refine ⟨s', ⟨h', hcont.mono ?_⟩, hkeep.1, fun p hp => (hkeep.2 p hp).resolve_left fun hpc => ?_⟩
  · rintro e ⟨-, p, hp, hpc⟩ q hq hlock
    obtain rfl := Option.some.inj (hp.symm.trans hq)
    rw [hpc] at hlock
    cases hlock
  · obtain ⟨i, hi⟩ := List.mem_iff_getElem?.mp hp
    have hnext : next s' ⟨i, -1⟩ = some ⟨s'.file, s'.lock,
        s'.processes.set i { p with pc := .exited }, s'.stdout⟩ := by
      simp [next, hi, Process.step, hpc]
    exact hstuck _ _ hnext ⟨neg_one_lt_zero, p, hi, hpc⟩

/-- **The lines do not show the lock.**  What can be on the terminal when all processes have
exited is the same whether locks are refused or not: the lines of those that could open the
file, in any order in which each of them prints its first line first. -/
theorem flock_outputs (n : ℕ) (file : List UInt8) (w : List (ℕ × Line)) :
    [∃ h s, (program n file).Run h s ∧ (∀ p ∈ s.processes, p.pc = .exited) ∧ s.stdout = w,
      ∃ h s, (program n file).Run h s ∧ (∀ e ∈ h, isGranting e) ∧
        (∀ p ∈ s.processes, p.pc = .exited) ∧ s.stdout = w,
      Ordered n w].TFAE := by
  tfae_have 1 → 3 := by
    rintro ⟨h, s, hrun, hexited, rfl⟩ i
    obtain ⟨hlength, hprinted, hnone⟩ := traced_of_run hrun
    rcases lt_or_ge i n with hlt | hge
    · obtain ⟨p, hp⟩ : ∃ p, s.processes[i]? = some p :=
        ⟨_, List.getElem?_eq_getElem (hlength ▸ hlt)⟩
      have hlines := hprinted i _ hp
      rw [hexited _ (List.mem_of_getElem? hp)] at hlines
      exact hlines.imp_right fun htwo => ⟨hlt, htwo⟩
    · exact .inl (hnone i hge)
  tfae_have 3 → 2 := by
    intro hw
    have hbegun : Begun n w := fun i => (hw i).imp_right fun hi => ⟨hi.1, .inr hi.2⟩
    obtain ⟨s, hs, -, hout, -, hplace⟩ := exists_leads file w hbegun
    have hends : ∀ p ∈ s.processes, p.pc = .open ∨ p.pc = .exited := by
      intro p hp
      obtain ⟨i, hi⟩ := List.mem_iff_getElem?.mp hp
      rw [hplace i p hi]
      rcases hw i with hnil | ⟨-, htwo⟩
      · exact .inl (by rw [hnil]; rfl)
      · exact .inr (by rw [htwo]; rfl)
    obtain ⟨s', hs', hout', hexited⟩ := leads_exited n file hends
    obtain ⟨h', hcont⟩ := hs.trans hs'
    exact ⟨_, s', hcont.run (.start rfl), hcont.forall_mem, hexited, hout'.trans hout⟩
  tfae_have 2 → 1 := by
    rintro ⟨h, s, hrun, -, hexited, hout⟩
    exact ⟨h, s, hrun, hexited, hout⟩
  tfae_finish

end FileLock

end LinuxExercise.ThreadSync
