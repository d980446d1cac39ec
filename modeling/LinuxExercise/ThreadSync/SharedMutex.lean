import LinuxExercise.Framework.System

/-!
# The process-shared mutex (`010_thread_sync/06thread_process_mutexattr_init.c`)

After `fork` parent and child do ten rounds each on the object in the shared mapping; the
parent then waits for the child.  The clean-up that follows the loops is outside the `if`, so
that both of them run it: the child destroys the attribute and the mutex, and the parent does
so again once the child has exited.

What a destroyed mutex does is undefined; here its `lock` returns at once (with `EINVAL`,
which the program ignores), and destroying a locked mutex may fail with `EBUSY` or not.
-/

namespace LinuxExercise.ThreadSync

namespace SharedMutex

inductive Process
  | parent
  | child
  deriving DecidableEq, Repr

/-- Where a process is after `fork`. -/
inductive Pc
  /-- `for (i = 0; i < 10; i++)`. -/
  | loop
  /-- `pthread_mutex_lock(&(m->mutex))`. -/
  | lock
  /-- `(m->num)++` or `m->num += 2`. -/
  | update
  /-- `printf` of `m->num`. -/
  | print
  /-- `pthread_mutex_unlock(&(m->mutex))`. -/
  | unlock
  /-- `sleep(1)`, then `i++`. -/
  | sleep
  /-- `wait(NULL)`. -/
  | wait
  /-- `pthread_mutexattr_destroy(&(m->mutexattr))`. -/
  | attrDestroy
  /-- `pthread_mutex_destroy(&(m->mutex))`. -/
  | mutexDestroy
  /-- `munmap(m, sizeof(*m))`. -/
  | munmap
  /-- `unlink("mt_test")`. -/
  | unlink
  | exited
  deriving DecidableEq, Repr

/-- The local variables of a process. -/
structure Proc where
  pc : Pc
  i : ℕ
  deriving DecidableEq, Repr

/-- A call on the mutex or its attribute; `ok` says that it returned `0`. -/
inductive Call
  | lock (p : Process)
  | unlock (p : Process)
  | attrDestroy (p : Process)
  | mutexDestroy (p : Process) (ok : Bool)
  deriving DecidableEq, Repr

end SharedMutex

open SharedMutex in
/-- `struct mt` in the shared mapping, and the two processes. -/
structure SharedMutex where
  num : ℕ
  /-- The process that has the mutex locked. -/
  owner : Option Process
  destroyed : Bool
  parent : Proc
  child : Proc
  /-- History: the calls that returned. -/
  calls : List Call
  deriving DecidableEq, Repr

namespace SharedMutex

/-- A step of a process; `busy` is whether `pthread_mutex_destroy` refuses a locked mutex. -/
structure Label where
  process : Process
  busy : Bool
  deriving DecidableEq, Repr

/-- After `fork`. -/
def start : SharedMutex where
  num := 0
  owner := none
  destroyed := false
  parent := ⟨.loop, 0⟩
  child := ⟨.loop, 0⟩
  calls := []

def proc (s : SharedMutex) : Process → Proc
  | .parent => s.parent
  | .child => s.child

def setProc (p : Process) (x : Proc) (s : SharedMutex) : SharedMutex :=
  match p with
  | .parent => { s with parent := x }
  | .child => { s with child := x }

/-- Process `p` goes on to `pc`. -/
def goto (p : Process) (pc : Pc) (s : SharedMutex) : SharedMutex :=
  setProc p { proc s p with pc := pc } s

/-- Where the loop leads after ten rounds. -/
def afterLoop : Process → Pc
  | .parent => .wait
  | .child => .attrDestroy

/-- Lines 51-61, 64-75 and 78-97. -/
def step (s : SharedMutex) (l : Label) : Option SharedMutex :=
  let p := l.process
  match (proc s p).pc with
  | .loop => some (goto p (if (proc s p).i < 10 then .lock else afterLoop p) s)
  | .lock =>
    if s.destroyed then some (goto p .update { s with calls := s.calls ++ [.lock p] })
    else if s.owner = none then
      some (goto p .update { s with owner := some p, calls := s.calls ++ [.lock p] })
    else none
  | .update => some (goto p .print { s with num := s.num + if p = .child then 1 else 2 })
  | .print => some (goto p .unlock s)
  | .unlock =>
    some (goto p .sleep
      { s with
        owner := if s.destroyed then s.owner else none
        calls := s.calls ++ [.unlock p] })
  | .sleep => some (setProc p ⟨.loop, (proc s p).i + 1⟩ s)
  | .wait => if s.child.pc = .exited then some (goto p .attrDestroy s) else none
  | .attrDestroy => some (goto p .mutexDestroy { s with calls := s.calls ++ [.attrDestroy p] })
  | .mutexDestroy =>
    if s.owner.isSome ∧ ¬ s.destroyed ∧ l.busy then
      some (goto p .munmap { s with calls := s.calls ++ [.mutexDestroy p false] })
    else
      some (goto p .munmap
        { s with destroyed := true, calls := s.calls ++ [.mutexDestroy p true] })
  | .munmap => some (goto p .unlink s)
  | .unlink => some (goto p .exited s)
  | .exited => none

/-- The interleavings of the two processes. -/
def program : System SharedMutex Label := .ofStep start step

/-- Both processes have run to the end. -/
def Complete (s : SharedMutex) : Prop := s.parent.pc = .exited ∧ s.child.pc = .exited

/-! ## The lifetime of the mutex -/

/-- A call that locks, unlocks or destroys the mutex. -/
def Call.usesMutex : Call → Bool
  | .attrDestroy _ => false
  | _ => true

def Call.destroysMutex : Call → Bool
  | .mutexDestroy _ ok => ok
  | _ => false

def Call.destroysAttr : Call → Bool
  | .attrDestroy _ => true
  | _ => false

/-- The mutex and its attribute are destroyed once, and the mutex is not used afterwards. -/
structure Lifetime (calls : List Call) : Prop where
  attr : calls.countP Call.destroysAttr = 1
  mutex : calls.countP Call.destroysMutex = 1
  after : ∀ before p later, calls = before ++ .mutexDestroy p true :: later →
    ∀ c ∈ later, c.usesMutex = false

/-- The processes that destroyed the attribute, in order. -/
def attrDestroyers (calls : List Call) : List Process :=
  calls.filterMap fun
    | .attrDestroy p => some p
    | _ => none

/-- The processes that called `pthread_mutex_destroy`, in order. -/
def mutexDestroyers (calls : List Call) : List Process :=
  calls.filterMap fun
    | .mutexDestroy p _ => some p
    | _ => none

/-- Past `pthread_mutexattr_destroy`. -/
def Pc.attrGone : Pc → Bool
  | .mutexDestroy | .munmap | .unlink | .exited => true
  | _ => false

/-- Past `pthread_mutex_destroy`. -/
def Pc.mutexGone : Pc → Bool
  | .munmap | .unlink | .exited => true
  | _ => false

/-- Past `wait`: in the clean-up. -/
def Pc.cleansUp : Pc → Bool
  | .attrDestroy | .mutexDestroy | .munmap | .unlink | .exited => true
  | _ => false

/-- The child's clean-up comes before the parent's, and each of them is recorded. -/
structure Inv (s : SharedMutex) : Prop where
  waits : s.parent.pc.cleansUp = true → s.child.pc = .exited
  attr : attrDestroyers s.calls = (if s.child.pc.attrGone then [.child] else []) ++
    if s.parent.pc.attrGone then [.parent] else []
  mutex : mutexDestroyers s.calls = (if s.child.pc.mutexGone then [.child] else []) ++
    if s.parent.pc.mutexGone then [.parent] else []

/-- What a step of process `p` does to the clean-up. -/
structure Advance (p : Process) (s s' : SharedMutex) : Prop where
  other : ∀ q, q ≠ p → proc s' q = proc s q
  running : (proc s p).pc ≠ .exited
  waits : (proc s' p).pc.cleansUp = true → (proc s p).pc.cleansUp = true ∨ p = .child ∨
    s.child.pc = .exited
  attr : ((proc s p).pc.attrGone = true → (proc s' p).pc.attrGone = true) ∧
    attrDestroyers s'.calls = attrDestroyers s.calls ++
      if (proc s' p).pc.attrGone && !(proc s p).pc.attrGone then [p] else []
  mutex : ((proc s p).pc.mutexGone = true → (proc s' p).pc.mutexGone = true) ∧
    mutexDestroyers s'.calls = mutexDestroyers s.calls ++
      if (proc s' p).pc.mutexGone && !(proc s p).pc.mutexGone then [p] else []

theorem proc_setProc (p : Process) (x : Proc) (s : SharedMutex) : proc (setProc p x s) p = x := by
  cases p <;> rfl

theorem proc_setProc_other {p q : Process} (h : q ≠ p) (x : Proc) (s : SharedMutex) :
    proc (setProc p x s) q = proc s q := by
  cases p <;> cases q
  · exact absurd rfl h
  · rfl
  · rfl
  · exact absurd rfl h

theorem calls_setProc (p : Process) (x : Proc) (s : SharedMutex) :
    (setProc p x s).calls = s.calls := by
  cases p <;> rfl

theorem attrDestroyers_append (cs ds : List Call) :
    attrDestroyers (cs ++ ds) = attrDestroyers cs ++ attrDestroyers ds :=
  List.filterMap_append

theorem mutexDestroyers_append (cs ds : List Call) :
    mutexDestroyers (cs ++ ds) = mutexDestroyers cs ++ mutexDestroyers ds :=
  List.filterMap_append

/-- A step that makes the calls `cs` and puts process `p` at `x`. -/
theorem Advance.of_setProc {p : Process} {s t : SharedMutex} {pc : Pc} {x : Proc}
    {cs : List Call} (hpc : (proc s p).pc = pc) (hproc : ∀ q, proc t q = proc s q)
    (hcalls : t.calls = s.calls ++ cs) (hrunning : pc ≠ .exited)
    (hwaits : x.pc.cleansUp = true → pc.cleansUp = true ∨ p = .child ∨ s.child.pc = .exited)
    (hattr : (pc.attrGone = true → x.pc.attrGone = true) ∧
      attrDestroyers cs = if x.pc.attrGone && !pc.attrGone then [p] else [])
    (hmutex : (pc.mutexGone = true → x.pc.mutexGone = true) ∧
      mutexDestroyers cs = if x.pc.mutexGone && !pc.mutexGone then [p] else []) :
    Advance p s (setProc p x t) := by
  subst hpc
  refine ⟨fun q hq => ?_, hrunning, ?_, ?_, ?_⟩
  · rw [proc_setProc_other hq, hproc]
  · rwa [proc_setProc]
  · rw [proc_setProc, calls_setProc, hcalls, attrDestroyers_append, hattr.2]
    exact ⟨hattr.1, rfl⟩
  · rw [proc_setProc, calls_setProc, hcalls, mutexDestroyers_append, hmutex.2]
    exact ⟨hmutex.1, rfl⟩

theorem advance_of_step {s s' : SharedMutex} {l : Label} (h : step s l = some s') :
    Advance l.process s s' := by
  obtain ⟨p, busy⟩ := l
  have hnone : s.calls = s.calls ++ [] := (List.append_nil _).symm
  have hsame : ∀ q, proc s q = proc s q := fun _ => rfl
  unfold step at h
  simp only at h
  cases hpc : (proc s p).pc <;> rw [hpc] at h
  case loop =>
    obtain rfl := Option.some.inj h
    refine .of_setProc hpc hsame hnone nofun (fun hclean => ?_) ?_ ?_
    · cases p with
      | parent =>
        simp only at hclean
        split at hclean <;> cases hclean
      | child => exact .inr (.inl rfl)
    · simp only
      split
      · exact ⟨nofun, rfl⟩
      · cases p <;> exact ⟨nofun, rfl⟩
    · simp only
      split
      · exact ⟨nofun, rfl⟩
      · cases p <;> exact ⟨nofun, rfl⟩
  case lock =>
    simp only at h
    split at h
    · obtain rfl := Option.some.inj h
      exact .of_setProc hpc (fun q => by cases q <;> rfl) rfl nofun nofun ⟨nofun, rfl⟩ ⟨nofun, rfl⟩
    · split at h
      · obtain rfl := Option.some.inj h
        exact .of_setProc hpc (fun q => by cases q <;> rfl) rfl nofun nofun ⟨nofun, rfl⟩
          ⟨nofun, rfl⟩
      · cases h
  case update =>
    obtain rfl := Option.some.inj h
    exact .of_setProc hpc (fun q => by cases q <;> rfl) hnone nofun nofun ⟨nofun, rfl⟩
      ⟨nofun, rfl⟩
  case print | sleep =>
    obtain rfl := Option.some.inj h
    exact .of_setProc hpc hsame hnone nofun nofun ⟨nofun, rfl⟩ ⟨nofun, rfl⟩
  case unlock =>
    obtain rfl := Option.some.inj h
    exact .of_setProc hpc (fun q => by cases q <;> rfl) rfl nofun nofun ⟨nofun, rfl⟩ ⟨nofun, rfl⟩
  case wait =>
    simp only at h
    split at h
    · next hchild =>
      obtain rfl := Option.some.inj h
      exact .of_setProc hpc hsame hnone nofun (fun _ => .inr (.inr hchild)) ⟨nofun, rfl⟩
        ⟨nofun, rfl⟩
    · cases h
  case attrDestroy =>
    obtain rfl := Option.some.inj h
    exact .of_setProc hpc (fun q => by cases q <;> rfl) rfl nofun (fun _ => .inl rfl)
      ⟨nofun, rfl⟩ ⟨nofun, rfl⟩
  case mutexDestroy =>
    simp only at h
    split at h
    all_goals
      obtain rfl := Option.some.inj h
      exact .of_setProc hpc (fun q => by cases q <;> rfl) rfl nofun (fun _ => .inl rfl)
        ⟨fun _ => rfl, rfl⟩ ⟨nofun, rfl⟩
  case munmap | unlink =>
    obtain rfl := Option.some.inj h
    exact .of_setProc hpc hsame hnone nofun (fun _ => .inl rfl) ⟨fun _ => rfl, rfl⟩
      ⟨fun _ => rfl, rfl⟩
  case exited => cases h

theorem attrGone_cleansUp {pc : Pc} (h : pc.attrGone = true) : pc.cleansUp = true := by
  cases pc <;> first | rfl | cases h

theorem mutexGone_cleansUp {pc : Pc} (h : pc.mutexGone = true) : pc.cleansUp = true := by
  cases pc <;> first | rfl | cases h

/-- The parent's entry comes after the child's. -/
theorem destroyers_parent {gone gone' child : Bool} (hmono : gone = true → gone' = true) :
    ((if child then [Process.child] else []) ++ if gone then [Process.parent] else []) ++
        (if gone' && !gone then [Process.parent] else []) =
      (if child then [Process.child] else []) ++ if gone' then [Process.parent] else [] := by
  cases gone <;> cases gone' <;> cases child <;> first | rfl | cases hmono rfl

/-- The child's entry is the first. -/
theorem destroyers_child {gone gone' parent : Bool} (hmono : gone = true → gone' = true)
    (hparent : parent = false) :
    ((if gone then [Process.child] else []) ++ if parent then [Process.parent] else []) ++
        (if gone' && !gone then [Process.child] else []) =
      (if gone' then [Process.child] else []) ++ if parent then [Process.parent] else [] := by
  subst hparent
  cases gone <;> cases gone' <;> first | rfl | cases hmono rfl

theorem Inv.step {s s' : SharedMutex} (h : Inv s) {l : Label} (hstep : step s l = some s') :
    Inv s' := by
  have hadv := advance_of_step hstep
  generalize l.process = p at hadv
  cases p with
  | parent =>
    have hchild : s'.child = s.child := hadv.other .child nofun
    refine ⟨fun hclean => ?_, ?_, ?_⟩
    · rw [hchild]
      rcases hadv.waits hclean with hold | heq | hexit
      · exact h.waits hold
      · cases heq
      · exact hexit
    · rw [hadv.attr.2, h.attr, hchild]
      exact destroyers_parent hadv.attr.1
    · rw [hadv.mutex.2, h.mutex, hchild]
      exact destroyers_parent hadv.mutex.1
  | child =>
    have hparent : s'.parent = s.parent := hadv.other .parent nofun
    -- The parent is still before its clean-up, or the child would have exited.
    have hbefore : s.parent.pc.cleansUp = false := by
      by_contra hclean
      exact hadv.running (h.waits (by simpa using hclean))
    refine ⟨fun hclean => ?_, ?_, ?_⟩
    · rw [hparent, hbefore] at hclean
      cases hclean
    · rw [hadv.attr.2, h.attr, hparent]
      apply destroyers_child hadv.attr.1
      by_contra hgone
      rw [attrGone_cleansUp (by simpa using hgone)] at hbefore
      cases hbefore
    · rw [hadv.mutex.2, h.mutex, hparent]
      apply destroyers_child hadv.mutex.1
      by_contra hgone
      rw [mutexGone_cleansUp (by simpa using hgone)] at hbefore
      cases hbefore

theorem inv_of_run {h : List (Event SharedMutex Label)} {s : SharedMutex}
    (hrun : program.Run h s) : Inv s := by
  refine hrun.invariant (I := Inv) ?_ ?_
  · rintro s rfl
    exact ⟨nofun, rfl, rfl⟩
  · intro s l s' _ hstep hinv
    exact hinv.step hstep

/-- The number of destructions is the number of processes that destroyed. -/
theorem countP_destroysAttr (calls : List Call) :
    calls.countP Call.destroysAttr = (attrDestroyers calls).length := by
  induction calls with
  | nil => rfl
  | cons c cs ih =>
    rw [List.countP_cons, ih]
    cases c <;> rfl

/-- **The clean-up runs twice in every complete run**: the child destroys the attribute and the
mutex, then the parent destroys both again. -/
theorem destroyed_twice (h : List (Event SharedMutex Label)) (s : SharedMutex)
    (hrun : program.Run h s) (hcomplete : Complete s) :
    attrDestroyers s.calls = [.child, .parent] ∧ mutexDestroyers s.calls = [.child, .parent] ∧
      ¬ Lifetime s.calls := by
  have hinv := inv_of_run hrun
  have hattr := hinv.attr
  have hmutex := hinv.mutex
  rw [hcomplete.1, hcomplete.2] at hattr hmutex
  refine ⟨hattr, hmutex, fun hlife => ?_⟩
  have hone := hlife.attr
  rw [countP_destroysAttr, hattr] at hone
  cases hone

/-- The rounds and the clean-up of one process. -/
def rounds (p : Process) (n : ℕ) : List Label := List.replicate (6 * n) ⟨p, false⟩

/-- The child is done first; the parent then does its last round. -/
def schedule : List Label :=
  rounds .parent 9 ++ rounds .child 10 ++ List.replicate 5 ⟨.child, false⟩ ++
    rounds .parent 1 ++ List.replicate 6 ⟨.parent, false⟩

theorem destroyed_twice_child_first : ∃ h s, program.Run h s ∧ s.num = 30 ∧
    mutexDestroyers s.calls = [.child, .parent] ∧ ¬ Lifetime s.calls := by
  obtain ⟨h, s, hrun, hP⟩ := System.exists_run_of_exec start step schedule
    (fun _ s => decide (s.num = 30 ∧ s.parent.pc = .exited ∧ s.child.pc = .exited))
    (by decide +kernel)
  obtain ⟨hnum, hparent, hchild⟩ := of_decide_eq_true hP
  exact ⟨h, s, hrun, hnum, (destroyed_twice h s hrun ⟨hparent, hchild⟩).2⟩

/-- In that run the parent locks the mutex that the child has destroyed. -/
theorem not_destroyed_once : ¬ ∀ (h : List (Event SharedMutex Label)) (s : SharedMutex),
    program.Run h s → Complete s → Lifetime s.calls := by
  intro hall
  obtain ⟨h, s, hrun, hP⟩ := System.exists_run_of_exec start step schedule
    (fun _ s => decide (s.calls[39]? = some (Call.mutexDestroy .child true) ∧
      s.calls[40]? = some (Call.lock .parent) ∧ s.parent.pc = .exited ∧ s.child.pc = .exited))
    (by decide +kernel)
  obtain ⟨hdestroy, hlock, hparent, hchild⟩ := of_decide_eq_true hP
  have hlife := hall h s hrun ⟨hparent, hchild⟩
  obtain ⟨hlt, hget⟩ := List.getElem?_eq_some_iff.mp hdestroy
  have hsplit : s.calls = s.calls.take 39 ++ .mutexDestroy .child true :: s.calls.drop 40 := by
    rw [← hget, ← List.drop_eq_getElem_cons hlt, List.take_append_drop]
  have hmem : Call.lock .parent ∈ s.calls.drop 40 := by
    apply List.mem_of_getElem? (i := 0)
    rw [List.getElem?_drop]
    exact hlock
  cases hlife.after _ _ _ hsplit _ hmem

end SharedMutex

end LinuxExercise.ThreadSync
