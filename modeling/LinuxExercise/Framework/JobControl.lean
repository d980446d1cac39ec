import LinuxExercise.Framework.Signals

/-!
# Processes that signals terminate, stop and continue

`Signals` knows one default action, termination.  Here the default action depends on the signal:
some are ignored, some stop the process, and `SIGCONT` continues it.  A stopped process executes
nothing and takes no signal but `SIGKILL`.  `SIGCONT` discards the stop signals that are pending,
and a stop signal discards a pending `SIGCONT`; no other signal that is pending is ever lost
(`mem_pending_send`).

The numbers are those of the `x86` and `arm` columns of `signal(7)`.
-/

namespace LinuxExercise

namespace JobProcess

def sigint : ℕ := 2
def sigquit : ℕ := 3
def sigkill : ℕ := 9
def sigusr1 : ℕ := 10
def sigterm : ℕ := 15
def sigcont : ℕ := 18
def sigstop : ℕ := 19
def sigtstp : ℕ := 20

/-- The signals whose default action is to stop: with `SIGTTIN` and `SIGTTOU`. -/
def stopSignals : Finset ℕ := {sigstop, sigtstp, 21, 22}

/-- The signals whose default action is to do nothing: `SIGCHLD`, `SIGURG` and `SIGWINCH`, and
`SIGCONT` when it is delivered. -/
def ignoredSignals : Finset ℕ := {17, sigcont, 23, 28}

inductive DefaultAction
  | terminate
  | stop
  | ignore
  deriving DecidableEq, Repr

def defaultAction (sig : ℕ) : DefaultAction :=
  if sig ∈ stopSignals then .stop else if sig ∈ ignoredSignals then .ignore else .terminate

end JobProcess

open JobProcess in
structure JobProcess (η : Type*) where
  signals : Signals ℕ η
  stopped : Bool
  /-- The signal that has terminated the process. -/
  terminated : Option ℕ

namespace JobProcess

variable {η : Type*}

/-- The process can execute its next statement. -/
def Running (p : JobProcess η) : Prop := p.stopped = false ∧ p.terminated = none

instance (p : JobProcess η) : Decidable p.Running := inferInstanceAs (Decidable (_ ∧ _))

/-- The pending signals that are discarded when `sig` is sent. -/
def discarded (sig : ℕ) : Finset ℕ :=
  if sig = sigcont then stopSignals else if sig ∈ stopSignals then {sigcont} else ∅

/-- `kill(pid, sig)`, by whomever. -/
def send (sig : ℕ) (p : JobProcess η) : JobProcess η :=
  { p with
    signals := { p.signals with pending := p.signals.pending \ discarded sig }.generate sig
    stopped := if sig = sigcont ∨ sig = sigkill then false else p.stopped }

/-- What the default action does to the process. -/
def applyDefault (sig : ℕ) (p : JobProcess η) : JobProcess η :=
  match defaultAction sig with
  | .terminate => { p with terminated := some sig }
  | .stop => { p with stopped := true }
  | .ignore => p

/-- The delivery of a pending signal: what is done about it. -/
def deliver (sig : ℕ) (p : JobProcess η) : Option (Disposition η × JobProcess η) :=
  if p.Running then
    (p.signals.deliver sig p.signals.mask).map fun (d, signals) =>
      (d, match d with
        | .dfl => applyDefault sig { p with signals := signals }
        | _ => { p with signals := signals })
  else none

/-- `sigprocmask(SIG_BLOCK, &set, NULL)`: two signals cannot be blocked. -/
def block (set : Finset ℕ) (p : JobProcess η) : JobProcess η :=
  { p with signals := p.signals.setMask (p.signals.mask ∪ set \ {sigkill, sigstop}) }

/-- `sigpending`: the pending signals that are blocked. -/
def sigpending (p : JobProcess η) : Finset ℕ := p.signals.pending ∩ p.signals.mask

variable {sig other : ℕ} {p : JobProcess η}

@[simp] theorem applyDefault_signals : (applyDefault sig p).signals = p.signals := by
  unfold applyDefault
  split <;> rfl

/-- What a delivery can be: a handler is called, or the other signals are left as they are. -/
theorem deliver_cases {p' : JobProcess η} {d : Disposition η} (h : p.deliver sig = some (d, p')) :
    p.Running ∧ sig ∈ p.signals.pending ∧ sig ∉ p.signals.mask ∧
      d = (p.signals.action sig).disposition ∧
      p'.signals.pending = p.signals.pending.erase sig ∧
      ((∃ f, d = .handle f ∧ p'.Running ∧
          p'.signals.mask = p.signals.mask ∪ (p.signals.action sig).blocks ∧
          p'.signals.action =
            Function.update p.signals.action sig (p.signals.action sig).taken ∧
          p'.signals.frames = p.signals.mask :: p.signals.frames) ∨
        ((∀ f, d ≠ .handle f) ∧ p'.signals.mask = p.signals.mask ∧
          p'.signals.action = p.signals.action ∧ p'.signals.frames = p.signals.frames)) := by
  unfold deliver at h
  by_cases hrunning : p.Running
  · rw [if_pos hrunning] at h
    obtain ⟨⟨d', signals⟩, hdeliver, heq⟩ := Option.map_eq_some_iff.mp h
    obtain ⟨hpending, hmask, hd, herase, hcases⟩ := Signals.deliver_cases hdeliver
    simp only [Prod.mk.injEq] at heq
    obtain ⟨rfl, rfl⟩ := heq
    refine ⟨hrunning, hpending, hmask, hd, ?_, ?_⟩
    · cases d' <;> simpa using herase
    · rcases hcases with ⟨f, rfl, hmask', haction, hframes⟩ | ⟨hnot, hmask', haction, hframes⟩
      · exact .inl ⟨f, rfl, hrunning, hmask', haction, hframes⟩
      · refine .inr ⟨hnot, ?_⟩
        cases d' with
        | handle f => exact absurd rfl (hnot f)
        | dfl => simpa using ⟨hmask', haction, hframes⟩
        | ign => exact ⟨hmask', haction, hframes⟩
  · rw [if_neg hrunning] at h
    cases h

/-- Whatever a delivery does, the interrupted code will find its mask again. -/
theorem deliver_base {p' : JobProcess η} {d : Disposition η} (h : p.deliver sig = some (d, p')) :
    p'.signals.base = p.signals.base := by
  obtain ⟨-, -, -, -, -, ⟨f, -, -, -, -, hframes⟩ | ⟨-, hmask, -, hframes⟩⟩ := deliver_cases h
  · rw [Signals.base, Signals.base, hframes, List.getLast?_cons]
    rfl
  · rw [Signals.base, Signals.base, hframes, hmask]

/-- A pending signal that is not blocked can be delivered to a running process. -/
theorem exists_deliver (hrunning : p.Running) (hpending : sig ∈ p.signals.pending)
    (hmask : sig ∉ p.signals.mask) : ∃ d p', p.deliver sig = some (d, p') := by
  rw [deliver, if_pos hrunning, Signals.deliver, if_pos ⟨hpending, hmask⟩]
  cases (p.signals.action sig).disposition <;> exact ⟨_, _, rfl⟩

/-- Sending a signal changes nothing about the signals but what is pending. -/
theorem send_signals (sig : ℕ) (p : JobProcess η) : ∃ pending,
    (p.send sig).signals = { p.signals with pending := pending } ∧
    (∀ other ∈ p.signals.pending, other ∉ discarded sig → other ∈ pending) ∧
    ∀ other ≠ sig, other ∈ pending ↔ other ∈ p.signals.pending ∧ other ∉ discarded sig := by
  obtain ⟨pending, heq, hkeep, hother⟩ := Signals.generate_eq sig
    { p.signals with pending := p.signals.pending \ discarded sig }
  refine ⟨pending, heq, fun other hmem hnot => hkeep other (Finset.mem_sdiff.mpr ⟨hmem, hnot⟩),
    fun other hne => ?_⟩
  rw [hother other hne, Finset.mem_sdiff]

/-- A signal outside job control is not discarded, whatever is sent. -/
theorem notMem_discarded (hstop : sig ∉ stopSignals) (hcont : sig ≠ sigcont) :
    sig ∉ discarded other := by
  unfold discarded
  split
  · exact hstop
  split
  · simpa using hcont
  · simp

theorem mem_pending_send (h : sig ∈ p.signals.pending) (hstop : sig ∉ stopSignals)
    (hcont : sig ≠ sigcont) : sig ∈ (p.send other).signals.pending := by
  obtain ⟨pending, heq, hkeep, -⟩ := send_signals other p
  rw [heq]
  exact hkeep sig h (notMem_discarded hstop hcont)

/-- A blocked signal is pending once it has been sent, whatever its action is. -/
theorem mem_pending_send_of_blocked (hmask : sig ∈ p.signals.mask) :
    sig ∈ (p.send other).signals.pending ↔
      sig = other ∨ sig ∈ p.signals.pending ∧ sig ∉ discarded other := by
  by_cases hsig : sig = other
  · subst hsig
    have heq := Signals.generate_blocked
      (s := { p.signals with pending := p.signals.pending \ discarded sig }) hmask
    simp [send, heq]
  · obtain ⟨pending, heq, -, hother⟩ := send_signals other p
    simp only [heq, hother sig hsig, hsig, false_or]

/-- A signal for which there is a handler is pending once it has been sent. -/
theorem mem_pending_of_handled {f : η} (h : (p.signals.action sig).disposition = .handle f) :
    sig ∈ (p.send sig).signals.pending := by
  have heq := Signals.generate_handled
    (s := { p.signals with pending := p.signals.pending \ discarded sig }) h
  rw [send, heq]
  exact Finset.mem_insert_self ..

end JobProcess

end LinuxExercise
