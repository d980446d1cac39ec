import LinuxExercise.Framework.System
import LinuxExercise.Framework.Threads

/-!
# The counter without a mutex (`010_thread_sync/01thread_no_sync.c`)

The threads copy the counter to `val`, print, and write `val + 1` back, with nothing that keeps
another thread from writing in between.  What the counter can be when `main` has joined its
threads is known exactly (`final_values`): with at least two threads that all make at least two
iterations it can be every number from 2 to the sum of the counts, and nothing else.

That it is never less than 2 is an invariant (`Inv`): a thread that has written before reads at
least 1, so the counter is at least 2 unless some thread has written just once.  Each value `v`
is reached by counting to `v - 2` first, holding the first thread before a write of `v - 1` until
all others have one iteration left at most, and then the second thread before a write of `v`.

The program starts two threads with `DEF_COUNT` iterations each; here `main` starts a thread for
each entry of a list of counts and joins them in that order.  `int` arithmetic wraps at 32 bits.
-/

namespace LinuxExercise.ThreadSync

namespace NoSync

/-- Where a thread is in `threadFunc`. -/
inductive Pc
  /-- `i < DEF_COUNT`. -/
  | test
  /-- `val = g_ncount`. -/
  | read
  | print
  /-- `g_ncount = val + 1`. -/
  | write
  /-- `i++`. -/
  | next
  /-- `return (void*)0`. -/
  | exited
  deriving DecidableEq, Repr

/-- The local variables of `threadFunc`, with the number of iterations that it is to make. -/
structure Thread where
  pc : Pc
  i : ℕ
  val : BitVec 32
  count : ℕ
  deriving DecidableEq, Repr

/-- A thread as `pthread_create` starts it. -/
def Thread.start (count : ℕ) : Thread where
  pc := .test
  i := 0
  val := 0
  count := count

end NoSync

open NoSync in
structure NoSync where
  gNcount : BitVec 32
  /-- The threads in the order of their creation. -/
  threads : List Thread
  /-- `main`: the counts of the threads that it has still to create. -/
  pending : List ℕ
  /-- `main`: how many threads it has joined. -/
  joined : ℕ
  deriving DecidableEq, Repr

namespace NoSync

/-- A step of a thread: its local state and the counter afterwards. -/
def Thread.step (x : Thread) (gNcount : BitVec 32) : Option (Thread × BitVec 32) :=
  match x.pc with
  | .test => some ({ x with pc := if x.i < x.count then .read else .exited }, gNcount)
  | .read => some ({ x with pc := .print, val := gNcount }, gNcount)
  | .print => some ({ x with pc := .write }, gNcount)
  | .write => some ({ x with pc := .next }, x.val + 1)
  | .next => some ({ x with pc := .test, i := x.i + 1 }, gNcount)
  | .exited => none

inductive Label
  | create
  | join
  | thread (t : ℕ)
  deriving DecidableEq, Repr

def next (s : NoSync) : Label → Option NoSync
  | .create =>
    match s.pending with
    | [] => none
    | n :: rest => some { s with threads := s.threads ++ [.start n], pending := rest }
  | .join =>
    if s.pending = [] ∧ (s.threads[s.joined]?).any (fun x => x.pc = .exited) then
      some { s with joined := s.joined + 1 }
    else none
  | .thread t =>
    match s.threads[t]? with
    | none => none
    | some x => (x.step s.gNcount).map fun (x', gNcount') =>
      { s with threads := s.threads.set t x', gNcount := gNcount' }

/-- `main` is about to create threads with the given counts; `g_ncount` is a global without an
initialiser. -/
def start (counts : List ℕ) : NoSync where
  gNcount := 0
  threads := []
  pending := counts
  joined := 0

def program (counts : List ℕ) : System NoSync Label := .ofStep (start counts) next

/-! ## What a step does to a thread -/

/-- The writes that a thread has made. -/
def Thread.written (x : Thread) : ℕ := if x.pc = .next then x.i + 1 else x.i

/-- The thread has read the counter and has not written yet, so that `val` matters. -/
def Thread.hasRead (x : Thread) : Prop := x.pc = .print ∨ x.pc = .write

/-- What is known of a thread's loop variable. -/
structure Thread.Ok (x : Thread) : Prop where
  le : x.i ≤ x.count
  lt : x.pc ≠ .test → x.pc ≠ .exited → x.i < x.count
  exited : x.pc = .exited → x.i = x.count

/-- What a step of a thread can be: a write, a read, or something that the counter has no part
in. -/
theorem Thread.step_cases {x x' : Thread} {g g' : BitVec 32} (h : x.step g = some (x', g')) :
    (x.pc = .write ∧ x' = { x with pc := .next } ∧ g' = x.val + 1) ∨
    (x.pc = .read ∧ x' = { x with pc := .print, val := g } ∧ g' = g) ∨
    (x.pc ≠ .write ∧ x.pc ≠ .read ∧ g' = g ∧ x'.val = x.val ∧ x'.written = x.written ∧
      (x'.hasRead → x.hasRead ∧ x'.i = x.i)) := by
  obtain ⟨pc, i, val, count⟩ := x
  cases pc with
  | write => left; simpa [Thread.step, eq_comm] using h
  | read => right; left; simpa [Thread.step, eq_comm] using h
  | exited => cases h
  | test =>
    right; right
    simp only [Thread.step] at h
    split at h <;> cases h <;> simp [Thread.written, Thread.hasRead]
  | print | next =>
    right; right
    cases h
    simp [Thread.written, Thread.hasRead]

theorem Thread.Ok.step {x x' : Thread} {g g' : BitVec 32} (hok : x.Ok)
    (h : x.step g = some (x', g')) : x'.Ok ∧ x'.count = x.count := by
  obtain ⟨hle, hlt, hexited⟩ := hok
  obtain ⟨pc, i, val, count⟩ := x
  cases pc with
  | exited => cases h
  | test =>
    simp only [Thread.step] at h
    split at h
    · next hi =>
      cases h
      exact ⟨⟨hle, fun _ _ => hi, nofun⟩, rfl⟩
    · next hi =>
      cases h
      exact ⟨⟨hle, fun _ hne => absurd rfl hne, fun _ => le_antisymm hle (not_lt.mp hi)⟩, rfl⟩
  | next =>
    have hi := hlt (by simp) (by simp)
    cases h
    exact ⟨⟨hi, fun hne => absurd rfl hne, nofun⟩, rfl⟩
  | read | print | write =>
    have hi := hlt (by simp) (by simp)
    cases h
    exact ⟨⟨hle, fun _ _ => hi, nofun⟩, rfl⟩

theorem Thread.Ok.written_le {x : Thread} (hok : x.Ok) : x.written ≤ x.count := by
  unfold Thread.written
  split
  · next hpc => exact hok.lt (by simp [hpc]) (by simp [hpc])
  · exact hok.le

/-! ## The bounds -/

/-- The writes that all threads have made. -/
def writes (threads : List Thread) : ℕ := (threads.map Thread.written).sum

/-- What the counter and the copies of it can be: they are at most the number of writes; they are
positive once there has been a write, the copy of a thread from its own first write on; and the
counter is at least 2 unless no thread has written or some thread has written once. -/
structure Values (gNcount : BitVec 32) (threads : List Thread) : Prop where
  le : gNcount.toNat ≤ writes threads
  val_le : ∀ x ∈ threads, x.hasRead → x.val.toNat ≤ writes threads
  pos : 0 < writes threads → 0 < gNcount.toNat
  val_pos : ∀ x ∈ threads, x.hasRead → 0 < x.i → 0 < x.val.toNat
  two : 2 ≤ gNcount.toNat ∨ writes threads = 0 ∨ ∃ x ∈ threads, x.written = 1

theorem written_le_writes {threads : List Thread} {x : Thread} (hx : x ∈ threads) :
    x.written ≤ writes threads :=
  List.le_sum_of_mem (List.mem_map_of_mem hx)

section Values

variable {g g' : BitVec 32} {threads : List Thread} {t : ℕ} {x x' : Thread}

/-- A new thread has written nothing. -/
theorem Values.create (hvalues : Values g threads) (n : ℕ) :
    Values g (threads ++ [.start n]) := by
  have hwrites : writes (threads ++ [.start n]) = writes threads := by
    simp [writes, Thread.written, Thread.start]
  have hsilent : ¬ (Thread.start n).hasRead := by simp [Thread.hasRead, Thread.start]
  refine ⟨hwrites ▸ hvalues.le, ?_, hwrites ▸ hvalues.pos, ?_, ?_⟩
  · rw [List.forall_mem_append, List.forall_mem_singleton, hwrites]
    exact ⟨hvalues.val_le, fun h => absurd h hsilent⟩
  · rw [List.forall_mem_append, List.forall_mem_singleton]
    exact ⟨hvalues.val_pos, fun h => absurd h hsilent⟩
  · rw [hwrites]
    exact hvalues.two.imp_right (Or.imp_right fun ⟨x, hx, hone⟩ =>
      ⟨x, List.mem_append_left _ hx, hone⟩)

/-- Replacing a thread keeps the other ones. -/
theorem exists_written_one (hx : threads[t]? = some x) (hsame : x'.written = x.written)
    (hone : ∃ y ∈ threads, y.written = 1) : ∃ y ∈ threads.set t x', y.written = 1 := by
  obtain ⟨hlt, -⟩ := List.getElem?_eq_some_iff.mp hx
  obtain ⟨y, hy, hone⟩ := hone
  obtain ⟨u, hu⟩ := List.getElem?_of_mem hy
  by_cases hut : t = u
  · subst hut
    obtain rfl := Option.some.inj (hx.symm.trans hu)
    exact ⟨x', List.mem_set hlt x', hsame.trans hone⟩
  · exact ⟨y, List.mem_of_getElem? (i := u) (by rw [List.getElem?_set_ne hut, hu]), hone⟩

/-- A step that neither reads nor writes. -/
theorem Values.silent (hvalues : Values g threads) (hx : threads[t]? = some x)
    (hval : x'.val = x.val) (hwritten : x'.written = x.written)
    (hcopy : x'.hasRead → x.hasRead ∧ x'.i = x.i) : Values g (threads.set t x') := by
  have hmem := List.mem_of_getElem? hx
  have hwrites : writes (threads.set t x') = writes threads := by
    have hset := sum_map_set_add (f := Thread.written) (b := x') hx
    simp only [writes]
    omega
  refine ⟨hwrites ▸ hvalues.le, fun y hy hr => ?_, hwrites ▸ hvalues.pos, fun y hy hr hpos => ?_,
    ?_⟩
  · rw [hwrites]
    rcases List.mem_or_eq_of_mem_set hy with hold | rfl
    · exact hvalues.val_le y hold hr
    · exact hval ▸ hvalues.val_le x hmem (hcopy hr).1
  · rcases List.mem_or_eq_of_mem_set hy with hold | rfl
    · exact hvalues.val_pos y hold hr hpos
    · exact hval ▸ hvalues.val_pos x hmem (hcopy hr).1 ((hcopy hr).2 ▸ hpos)
  · rw [hwrites]
    exact hvalues.two.imp_right (Or.imp_right (exists_written_one hx hwritten))

/-- The read: the copy is the counter. -/
theorem Values.read (hvalues : Values g threads) (hx : threads[t]? = some x)
    (hpc : x.pc = .read) : Values g (threads.set t { x with pc := .print, val := g }) := by
  have hwritten : Thread.written { x with pc := .print, val := g } = x.written := by
    simp [Thread.written, hpc]
  have hi : x.written = x.i := by simp [Thread.written, hpc]
  have hmine := written_le_writes (List.mem_of_getElem? hx)
  have hwrites : writes (threads.set t { x with pc := .print, val := g }) = writes threads := by
    have hset := sum_map_set_add (f := Thread.written) (b := { x with pc := .print, val := g }) hx
    simp only [writes]
    omega
  refine ⟨hwrites ▸ hvalues.le, fun y hy hr => ?_, hwrites ▸ hvalues.pos, fun y hy hr hpos => ?_,
    ?_⟩
  · rw [hwrites]
    rcases List.mem_or_eq_of_mem_set hy with hold | rfl
    · exact hvalues.val_le y hold hr
    · exact hvalues.le
  · rcases List.mem_or_eq_of_mem_set hy with hold | rfl
    · exact hvalues.val_pos y hold hr hpos
    · exact hvalues.pos (lt_of_lt_of_le (hi ▸ hpos) hmine)
  · rw [hwrites]
    exact hvalues.two.imp_right (Or.imp_right (exists_written_one hx hwritten))

/-- The write: the counter is one more than the copy. -/
theorem Values.write (hvalues : Values g threads) (hx : threads[t]? = some x)
    (hpc : x.pc = .write) (hroom : writes (threads.set t { x with pc := .next }) < 2 ^ 32) :
    Values (x.val + 1) (threads.set t { x with pc := .next }) := by
  have hmem := List.mem_of_getElem? hx
  have hlt : t < threads.length := (List.getElem?_eq_some_iff.mp hx).1
  have hnew : Thread.written { x with pc := .next } = x.i + 1 := by simp [Thread.written]
  have hwrites : writes (threads.set t { x with pc := .next }) = writes threads + 1 := by
    have hset := sum_map_set_add (f := Thread.written) (b := { x with pc := .next }) hx
    have hold : x.written = x.i := by simp [Thread.written, hpc]
    simp only [writes]
    omega
  have hcopy : x.val.toNat ≤ writes threads := hvalues.val_le x hmem (.inr hpc)
  have hnat : (x.val + 1).toNat = x.val.toNat + 1 := by
    rw [BitVec.toNat_add]
    exact Nat.mod_eq_of_lt (by simp; omega)
  have hsilent : ¬ Thread.hasRead { x with pc := .next } := by simp [Thread.hasRead]
  rw [hwrites] at hroom
  refine ⟨by omega, fun y hy hr => ?_, fun _ => by omega, fun y hy hr => ?_, ?_⟩
  · rw [hwrites]
    rcases List.mem_or_eq_of_mem_set hy with hold | rfl
    · exact (hvalues.val_le y hold hr).trans (Nat.le_succ _)
    · exact absurd hr hsilent
  · rcases List.mem_or_eq_of_mem_set hy with hold | rfl
    · exact hvalues.val_pos y hold hr
    · exact absurd hr hsilent
  · -- A thread that has written before has read at least 1.
    rcases Nat.eq_zero_or_pos x.i with hzero | hpos
    · exact .inr (.inr ⟨_, List.mem_set hlt _, by rw [hnew, hzero]⟩)
    · have := hvalues.val_pos x hmem (.inr hpc) hpos
      left
      omega

end Values

/-! ## All interleavings -/

/-- The invariant: the values, the loops of the threads, and what `main` has done so far. -/
structure Inv (counts : List ℕ) (s : NoSync) : Prop where
  values : Values s.gNcount s.threads
  ok : ∀ x ∈ s.threads, x.Ok
  counts : s.threads.map Thread.count ++ s.pending = counts
  joined : ∀ t < s.joined, ∃ x, s.threads[t]? = some x ∧ x.pc = .exited

theorem inv_start (counts : List ℕ) : Inv counts (start counts) where
  values := ⟨le_rfl, nofun, fun h => absurd h (lt_irrefl _), nofun, .inr (.inl rfl)⟩
  ok := nofun
  counts := rfl
  joined := nofun

section Inv

variable {counts : List ℕ} {s : NoSync}

theorem writes_le {threads : List Thread} {pending : List ℕ} (hok : ∀ x ∈ threads, x.Ok)
    (hcounts : threads.map Thread.count ++ pending = counts) : writes threads ≤ counts.sum := by
  calc writes threads ≤ (threads.map Thread.count).sum :=
        List.sum_le_sum fun x hx => (hok x hx).written_le
    _ ≤ counts.sum := by
        rw [← hcounts, List.sum_append]
        exact Nat.le_add_right _ _

theorem Inv.create (hinv : Inv counts s) {n : ℕ} {rest : List ℕ}
    (hpending : s.pending = n :: rest) :
    Inv counts { s with threads := s.threads ++ [.start n], pending := rest } where
  values := hinv.values.create n
  ok := by
    rw [List.forall_mem_append, List.forall_mem_singleton]
    exact ⟨hinv.ok, ⟨Nat.zero_le _, fun h => absurd rfl h, nofun⟩⟩
  counts := by
    rw [← hinv.counts, hpending, List.map_append, List.append_assoc]
    rfl
  joined t ht := by
    obtain ⟨x, hx, hpc⟩ := hinv.joined t ht
    refine ⟨x, ?_, hpc⟩
    show (s.threads ++ [Thread.start n])[t]? = some x
    rw [List.getElem?_append_left (List.getElem?_eq_some_iff.mp hx).1, hx]

/-- A step of a thread. -/
theorem Inv.thread (hsum : counts.sum < 2 ^ 31) (hinv : Inv counts s) {t : ℕ} {x x' : Thread}
    {g' : BitVec 32} (hx : s.threads[t]? = some x) (hstep : x.step s.gNcount = some (x', g')) :
    Inv counts { s with threads := s.threads.set t x', gNcount := g' } := by
  have hlt : t < s.threads.length := (List.getElem?_eq_some_iff.mp hx).1
  obtain ⟨hok', hcount'⟩ := (hinv.ok x (List.mem_of_getElem? hx)).step hstep
  have hok : ∀ y ∈ s.threads.set t x', y.Ok := by
    intro y hy
    rcases List.mem_or_eq_of_mem_set hy with hold | rfl
    · exact hinv.ok y hold
    · exact hok'
  have hcounts : (s.threads.set t x').map Thread.count ++ s.pending = counts := by
    rw [← hinv.counts, List.map_set, hcount']
    refine congrArg (· ++ s.pending) (List.ext_getElem? fun u => ?_)
    by_cases hu : t = u
    · subst hu
      rw [List.getElem?_set_self (by rwa [List.length_map]), List.getElem?_map, hx]
      rfl
    · rw [List.getElem?_set_ne hu]
  refine ⟨?_, hok, hcounts, fun u hu => ?_⟩
  · rcases Thread.step_cases hstep with ⟨hpc, rfl, rfl⟩ | ⟨hpc, rfl, rfl⟩ |
      ⟨-, -, rfl, hval, hwritten, hcopy⟩
    · have hroom := writes_le hok hcounts
      exact hinv.values.write hx hpc (by omega)
    · exact hinv.values.read hx hpc
    · exact hinv.values.silent hx hval hwritten hcopy
  · obtain ⟨y, hy, hpc⟩ := hinv.joined u hu
    by_cases hut : u = t
    · subst hut
      obtain rfl := Option.some.inj (hx.symm.trans hy)
      simp [Thread.step, hpc] at hstep
    · exact ⟨y, by rw [← hy]; exact List.getElem?_set_ne (Ne.symm hut), hpc⟩

/-- A thread that has returned is joined. -/
theorem Inv.join (hinv : Inv counts s)
    (hexited : (s.threads[s.joined]?).any (fun x => x.pc = .exited) = true) :
    Inv counts { s with joined := s.joined + 1 } := by
  refine { hinv with joined := fun t ht => ?_ }
  rcases Nat.lt_succ_iff_lt_or_eq.mp ht with hold | rfl
  · exact hinv.joined t hold
  · cases hx : s.threads[s.joined]? with
    | none => simp [hx] at hexited
    | some x =>
      rw [hx] at hexited
      exact ⟨x, rfl, of_decide_eq_true hexited⟩

theorem Inv.step (hsum : counts.sum < 2 ^ 31) {s' : NoSync} {l : Label} (hinv : Inv counts s)
    (hstep : next s l = some s') : Inv counts s' := by
  cases l with
  | create =>
    unfold next at hstep
    cases hpending : s.pending with
    | nil => simp [hpending] at hstep
    | cons n rest =>
      simp only [hpending, Option.some.injEq] at hstep
      subst hstep
      exact hinv.create hpending
  | join =>
    by_cases hcond : s.pending = [] ∧ (s.threads[s.joined]?).any (fun x => x.pc = .exited) = true
    · rw [next, if_pos hcond] at hstep
      obtain rfl := Option.some.inj hstep
      exact hinv.join hcond.2
    · rw [next, if_neg hcond] at hstep
      cases hstep
  | thread t =>
    unfold next at hstep
    cases hx : s.threads[t]? with
    | none => simp [hx] at hstep
    | some x =>
      simp only [hx] at hstep
      obtain ⟨⟨x', g'⟩, hx', rfl⟩ := Option.map_eq_some_iff.mp hstep
      exact hinv.thread hsum hx hx'

theorem inv_of_run (hsum : counts.sum < 2 ^ 31) {h : List (Event NoSync Label)}
    (hrun : (program counts).Run h s) : Inv counts s := by
  refine hrun.invariant (I := Inv counts) ?_ fun s l s' _ hstep hinv => hinv.step hsum hstep
  rintro s rfl
  exact inv_start counts

/-- When all threads have been joined, all of them have made all their iterations. -/
theorem Inv.all_joined (hinv : Inv counts s) (hjoined : s.joined = counts.length) :
    s.pending = [] ∧ ∀ x ∈ s.threads, x.written = x.count := by
  have hlength : s.threads.length + s.pending.length = counts.length := by
    rw [← hinv.counts, List.length_append, List.length_map]
  constructor
  · rw [← List.length_eq_zero_iff]
    by_contra hne
    obtain ⟨x, hx, -⟩ := hinv.joined s.threads.length (by omega)
    exact (List.getElem?_eq_some_iff.mp hx).1.false
  · intro x hx
    obtain ⟨t, ht⟩ := List.mem_iff_getElem?.mp hx
    have hlt := (List.getElem?_eq_some_iff.mp ht).1
    obtain ⟨y, hy, hpc⟩ := hinv.joined t (by omega)
    obtain rfl := Option.some.inj (ht.symm.trans hy)
    rw [Thread.written, if_neg (by simp [hpc]), (hinv.ok x hx).exited hpc]

/-- What the counter can be at most and at least. -/
theorem Inv.bounds (hinv : Inv counts s) (hthreads : counts ≠ []) (hcounts : ∀ n ∈ counts, 2 ≤ n)
    (hjoined : s.joined = counts.length) :
    2 ≤ s.gNcount.toNat ∧ s.gNcount.toNat ≤ counts.sum := by
  obtain ⟨hpending, hwritten⟩ := hinv.all_joined hjoined
  have hmap : s.threads.map Thread.count = counts := by
    rw [← hinv.counts, hpending, List.append_nil]
  have hwrites : writes s.threads = counts.sum := by
    rw [writes, ← hmap]
    exact congrArg List.sum (List.map_congr_left hwritten)
  have htwo : ∀ x ∈ s.threads, 2 ≤ x.written := fun x hx => by
    rw [hwritten x hx]
    exact hcounts _ (hmap ▸ List.mem_map_of_mem hx)
  refine ⟨?_, hwrites ▸ hinv.values.le⟩
  rcases hinv.values.two with h | hzero | ⟨x, hx, hone⟩
  · exact h
  · obtain ⟨n, hn⟩ := List.exists_mem_of_ne_nil _ hthreads
    have hle := List.le_sum_of_mem hn
    have := hcounts n hn
    omega
  · have := htwo x hx
    omega

end Inv

/-! ## Every value between the bounds

From here on a thread is given its turns: it runs alone for some steps (`Thread.Alone`), and a
state is reached by letting one thread after the other run alone. -/

/-- Steps of one thread, on its locals and the counter. -/
abbrev Thread.Alone : Thread × BitVec 32 → Thread × BitVec 32 → Prop :=
  Relation.ReflTransGen fun a b => a.1.step a.2 = some b

section Alone

variable {g : BitVec 32} {v : BitVec 32} {i c n : ℕ}

/-- The thread reads the counter and is about to write. -/
theorem alone_hold (hi : i < c) :
    Thread.Alone (⟨.test, i, v, c⟩, g) (⟨.write, i, g, c⟩, g) := by
  refine .head (b := (⟨.read, i, v, c⟩, g)) ?_ (.head (b := (⟨.print, i, g, c⟩, g)) rfl
    (.single rfl))
  simp [Thread.step, hi]

/-- The thread writes and goes on to its next iteration. -/
theorem alone_release :
    Thread.Alone (⟨.write, i, v, c⟩, g) (⟨.test, i + 1, v, c⟩, v + 1) :=
  .head (b := (⟨.next, i, v, c⟩, v + 1)) rfl (.single rfl)

theorem alone_exit (hi : c ≤ i) :
    Thread.Alone (⟨.test, i, v, c⟩, g) (⟨.exited, i, v, c⟩, g) := by
  refine .single ?_
  simp [Thread.step, Nat.not_lt.mpr hi]

/-- Undisturbed iterations count. -/
theorem alone_iterate (hn : i + n ≤ c) : ∃ v', Thread.Alone (⟨.test, i, v, c⟩, g)
    (⟨.test, i + n, v', c⟩, g + .ofNat 32 n) := by
  induction n with
  | zero => exact ⟨v, by simpa using Relation.ReflTransGen.refl⟩
  | succ n ih =>
    obtain ⟨v', hold⟩ := ih (by omega)
    refine ⟨g + .ofNat 32 n, hold.trans ((alone_hold (by omega)).trans ?_)⟩
    rw [BitVec.ofNat_add, ← BitVec.add_assoc]
    exact alone_release

theorem alone_finish (hi : i ≤ c) : ∃ v' g', Thread.Alone (⟨.test, i, v, c⟩, g)
    (⟨.exited, c, v', c⟩, g') := by
  obtain ⟨v', hold⟩ := alone_iterate (v := v) (g := g) (n := c - i) (c := c) (i := i) (by omega)
  rw [Nat.add_sub_cancel' hi] at hold
  exact ⟨v', _, hold.trans (alone_exit le_rfl)⟩

end Alone

section Reach

variable {counts : List ℕ} {g g' : BitVec 32} {threads : List Thread}

/-- `main` has created all its threads and joined none. -/
def created (g : BitVec 32) (threads : List Thread) : NoSync := ⟨g, threads, [], 0⟩

/-- A thread that runs alone runs in the program. -/
theorem leads_alone (counts : List ℕ) {t : ℕ} {x x' : Thread} (hx : threads[t]? = some x)
    (halone : Thread.Alone (x, g) (x', g')) :
    (program counts).Leads (created g threads) (created g' (threads.set t x')) := by
  obtain ⟨hlt, hget⟩ := List.getElem?_eq_some_iff.mp hx
  generalize hb : (x', g') = b at halone
  induction halone generalizing x' g' with
  | refl =>
    obtain ⟨rfl, rfl⟩ := Prod.mk.injEq .. ▸ hb
    rw [← hget, List.set_getElem_self]
  | @tail b b' hold hstep ih =>
    subst hb
    obtain ⟨y, gy⟩ := b
    refine (ih rfl).tail ⟨.thread t, ?_⟩
    show next _ _ = _
    simp [next, created, hlt, hstep]

/-- The thread behind `pre` runs alone. -/
theorem leads_alone_at (pre : List Thread) {post : List Thread} {x x' : Thread}
    (halone : Thread.Alone (x, g) (x', g')) : (program counts).Leads
      (created g (pre ++ x :: post)) (created g' (pre ++ x' :: post)) := by
  have hx : (pre ++ x :: post)[pre.length]? = some x := by simp
  have hlead := leads_alone counts hx halone
  simpa using hlead

/-- Threads that have not started can count up to the sum of their counts. -/
theorem leads_count (counts : List ℕ) (pre : List Thread) (rest : List ℕ) (g : BitVec 32) {k : ℕ}
    (hk : k ≤ rest.sum) : ∃ zs : List Thread, zs.map Thread.count = rest ∧
      (∀ z ∈ zs, z.pc = .test ∧ z.i ≤ z.count) ∧ (program counts).Leads
        (created g (pre ++ rest.map Thread.start)) (created (g + .ofNat 32 k) (pre ++ zs)) := by
  induction rest generalizing pre g k with
  | nil =>
    obtain rfl : k = 0 := by simpa using hk
    exact ⟨[], rfl, nofun, by simpa using Relation.ReflTransGen.refl⟩
  | cons c rest ih =>
    rw [List.sum_cons] at hk
    obtain ⟨v, halone⟩ := alone_iterate (i := 0) (v := 0) (c := c) (g := g) (n := min k c)
      (by omega)
    obtain ⟨zs, hmap, hrest, hlead⟩ := ih (pre ++ [⟨.test, 0 + min k c, v, c⟩])
      (g + .ofNat 32 (min k c)) (k := k - min k c) (by omega)
    refine ⟨⟨.test, 0 + min k c, v, c⟩ :: zs, by rw [List.map_cons, hmap], ?_, ?_⟩
    · rw [List.forall_mem_cons]
      exact ⟨⟨rfl, by simp⟩, hrest⟩
    · have hsplit : g + .ofNat 32 (min k c) + .ofNat 32 (k - min k c) = g + .ofNat 32 k := by
        rw [BitVec.add_assoc, ← BitVec.ofNat_add, Nat.add_sub_cancel' (Nat.min_le_left k c)]
      rw [hsplit] at hlead
      refine (leads_alone_at pre halone).trans ?_
      simpa using hlead

/-- Threads that are between two iterations can be run to their end. -/
theorem leads_exited (counts : List ℕ) (pre zs : List Thread) (g : BitVec 32)
    (hzs : ∀ z ∈ zs, z.pc = .test ∧ z.i ≤ z.count) : ∃ (g' : BitVec 32) (zs' : List Thread),
      zs'.length = zs.length ∧ (∀ z ∈ zs', z.pc = .exited) ∧ (program counts).Leads
        (created g (pre ++ zs)) (created g' (pre ++ zs')) := by
  induction zs generalizing pre g with
  | nil => exact ⟨g, [], rfl, nofun, .refl⟩
  | cons z zs ih =>
    rw [List.forall_mem_cons] at hzs
    obtain ⟨⟨hpc, hi⟩, hzs⟩ := hzs
    obtain ⟨pc, i, v, c⟩ := z
    obtain rfl : pc = .test := hpc
    obtain ⟨v', g₁, halone⟩ := alone_finish (v := v) (g := g) hi
    obtain ⟨g', zs', hlen, hexited, hlead⟩ := ih (pre ++ [⟨.exited, c, v', c⟩]) g₁ hzs
    refine ⟨g', ⟨.exited, c, v', c⟩ :: zs', by rw [List.length_cons, hlen, List.length_cons], ?_,
      (leads_alone_at pre halone).trans ?_⟩
    · rw [List.forall_mem_cons]
      exact ⟨rfl, hexited⟩
    · simpa using hlead

theorem leads_created (threads : List Thread) (pending : List ℕ) : (program counts).Leads
    ⟨g, threads, pending, 0⟩ (created g (threads ++ pending.map Thread.start)) := by
  induction pending generalizing threads with
  | nil => simpa [created] using Relation.ReflTransGen.refl
  | cons n rest ih =>
    refine .head ⟨.create, rfl⟩ ?_
    simpa using ih (threads ++ [Thread.start n])

theorem leads_joined (hexited : ∀ x ∈ threads, x.pc = .exited) {j : ℕ} (hj : j ≤ threads.length) :
    (program counts).Leads (created g threads) ⟨g, threads, [], j⟩ := by
  induction j with
  | zero => exact .refl
  | succ j ih =>
    refine (ih (by omega)).tail ⟨.join, ?_⟩
    have hlt : j < threads.length := hj
    show next _ _ = _
    simp [next, hlt, hexited]

/-- All iterations but the last two count; the first thread is held before its last write until
the others are done but for one iteration of the second, and the second until the first is
done. -/
theorem leads_value (counts : List ℕ) {c₀ c₁ : ℕ} {rest : List ℕ} (h₀ : 0 < c₀) (h₁ : 0 < c₁)
    {k : ℕ} (hk : k + 2 ≤ c₀ + (c₁ + rest.sum)) : ∃ threads : List Thread,
      (program counts).Leads (start (c₀ :: c₁ :: rest))
        ⟨.ofNat 32 (k + 2), threads, [], (c₀ :: c₁ :: rest).length⟩ := by
  obtain ⟨k₀, k₁, k₂, rfl, hk₀, hk₁, hk₂⟩ : ∃ k₀ k₁ k₂, k = k₀ + (k₁ + k₂) ∧ k₀ + 1 ≤ c₀ ∧
      k₁ + 1 ≤ c₁ ∧ k₂ ≤ rest.sum :=
    ⟨min k (c₀ - 1), min (k - min k (c₀ - 1)) (c₁ - 1),
      k - min k (c₀ - 1) - min (k - min k (c₀ - 1)) (c₁ - 1), by omega, by omega, by omega,
      by omega⟩
  -- Counting to `k`.
  obtain ⟨v₀, hcount₀⟩ := alone_iterate (i := 0) (v := 0) (c := c₀) (g := 0) (n := k₀) (by omega)
  obtain ⟨v₁, hcount₁⟩ := alone_iterate (i := 0) (v := 0) (c := c₁) (g := 0 + .ofNat 32 k₀)
    (n := k₁) (by omega)
  obtain ⟨zs, hmap, htest, hcount⟩ := leads_count counts
    [⟨.test, 0 + k₀, v₀, c₀⟩, ⟨.test, 0 + k₁, v₁, c₁⟩] rest
    (0 + .ofNat 32 k₀ + .ofNat 32 k₁) hk₂
  have hg : (0 : BitVec 32) + .ofNat 32 k₀ + .ofNat 32 k₁ + .ofNat 32 k₂ =
      .ofNat 32 (k₀ + (k₁ + k₂)) := by
    simp [BitVec.ofNat_add, BitVec.add_assoc]
  rw [hg] at hcount
  have hv : (BitVec.ofNat 32 (k₀ + (k₁ + k₂)) + 1) + 1 = .ofNat 32 (k₀ + (k₁ + k₂) + 2) := by
    rw [BitVec.ofNat_add _ 2, BitVec.add_assoc]
    rfl
  generalize BitVec.ofNat 32 (k₀ + (k₁ + k₂)) = gk at hcount hv
  -- The others run on while the first thread is about to write `k + 1`.
  obtain ⟨v₂, hlose⟩ := alone_iterate (i := 0 + k₁) (v := v₁) (c := c₁) (g := gk)
    (n := c₁ - 1 - k₁) (by omega)
  obtain ⟨g₂, zs', hlen, hexited, hlost⟩ := leads_exited counts
    [⟨.write, 0 + k₀, gk, c₀⟩, ⟨.test, 0 + k₁ + (c₁ - 1 - k₁), v₂, c₁⟩] zs
    (gk + .ofNat 32 (c₁ - 1 - k₁)) htest
  -- The first thread runs on while the second is about to write `k + 2`.
  obtain ⟨v₃, g₃, hfinish⟩ := alone_finish (i := 0 + k₀ + 1) (v := gk) (c := c₀) (g := gk + 1)
    (by omega)
  have hleads : (program counts).Leads (start (c₀ :: c₁ :: rest))
      (created (gk + 1 + 1) (⟨.exited, c₀, v₃, c₀⟩ ::
        ⟨.exited, 0 + k₁ + (c₁ - 1 - k₁) + 1, gk + 1, c₁⟩ :: zs')) := by
    refine (leads_created [] _).trans ?_
    refine (leads_alone_at [] hcount₀).trans ?_
    refine (leads_alone_at [⟨.test, 0 + k₀, v₀, c₀⟩] hcount₁).trans ?_
    refine hcount.trans ?_
    refine (leads_alone_at [] (alone_hold (by omega))).trans ?_
    refine (leads_alone_at [⟨.write, 0 + k₀, gk, c₀⟩] hlose).trans ?_
    refine hlost.trans ?_
    refine (leads_alone_at [] alone_release).trans ?_
    refine (leads_alone_at [⟨.test, 0 + k₀ + 1, gk, c₀⟩]
      (alone_hold (by omega))).trans ?_
    refine (leads_alone_at [] hfinish).trans ?_
    refine (leads_alone_at [⟨.exited, c₀, v₃, c₀⟩] alone_release).trans ?_
    exact leads_alone_at [⟨.exited, c₀, v₃, c₀⟩] (alone_exit (by omega))
  have hlength : (c₀ :: c₁ :: rest).length = zs'.length + 1 + 1 := by
    rw [hlen, ← hmap, List.length_cons, List.length_cons, List.length_map]
  refine ⟨⟨.exited, c₀, v₃, c₀⟩ ::
    ⟨.exited, 0 + k₁ + (c₁ - 1 - k₁) + 1, gk + 1, c₁⟩ :: zs', hleads.trans ?_⟩
  rw [← hv, hlength]
  exact leads_joined (by simpa using hexited) le_rfl

end Reach

/-- **What the unsynchronised counter can be.**  With at least two threads that all make at least
two iterations, and less than `2 ^ 31` in all, the values that `g_ncount` can have once `main`
has joined its threads are those from 2 to the sum of the counts. -/
theorem final_values (counts : List ℕ) (hthreads : 2 ≤ counts.length)
    (hcounts : ∀ n ∈ counts, 2 ≤ n) (hsum : counts.sum < 2 ^ 31) (v : ℤ) :
    (∃ h s, (program counts).Run h s ∧ s.joined = counts.length ∧ s.gNcount.toInt = v) ↔
      2 ≤ v ∧ v ≤ counts.sum := by
  constructor
  · rintro ⟨h, s, hrun, hjoined, rfl⟩
    obtain ⟨hlow, hhigh⟩ :=
      (inv_of_run hsum hrun).bounds (by rintro rfl; simp at hthreads) hcounts hjoined
    rw [BitVec.toInt_eq_toNat_of_lt (by omega)]
    omega
  · rintro ⟨hlow, hhigh⟩
    obtain ⟨k, rfl⟩ : ∃ k : ℕ, v = (k + 2 : ℕ) := ⟨(v - 2).toNat, by omega⟩
    obtain ⟨c₀, c₁, rest, rfl⟩ : ∃ c₀ c₁ rest, counts = c₀ :: c₁ :: rest := by
      match counts, hthreads with
      | c₀ :: c₁ :: rest, _ => exact ⟨c₀, c₁, rest, rfl⟩
    have h₀ := hcounts c₀ (by simp)
    have h₁ := hcounts c₁ (by simp)
    simp only [List.sum_cons] at hhigh hsum
    obtain ⟨threads, hlead⟩ := leads_value (c₀ :: c₁ :: rest) (k := k) (Nat.zero_lt_of_lt h₀)
      (Nat.zero_lt_of_lt h₁) (show k + 2 ≤ c₀ + (c₁ + rest.sum) by omega)
    obtain ⟨h, hrun⟩ := System.Run.leads (.start rfl) hlead
    refine ⟨_, _, hrun, rfl, ?_⟩
    have hnat : (BitVec.ofNat 32 (k + 2)).toNat = k + 2 := by
      rw [BitVec.toNat_ofNat]
      exact Nat.mod_eq_of_lt (by omega)
    show (BitVec.ofNat 32 (k + 2)).toInt = _
    rw [BitVec.toInt_eq_toNat_of_lt (by omega), hnat]

/-- The two threads with 5000 iterations each can leave 2 in the counter. -/
theorem final_values_of_source : ∃ h s, (program [5000, 5000]).Run h s ∧ s.joined = 2 ∧
    s.gNcount.toInt = 2 :=
  (final_values [5000, 5000] (by decide) (by decide) (by decide) 2).2 (by decide)

end NoSync

end LinuxExercise.ThreadSync
