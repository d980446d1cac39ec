import LinuxExercise.Framework.Signals
import LinuxExercise.Framework.System

/-!
# A sleep with `sigsuspend` (`007singnal/08sigsuspend.c`)

`mysleep` handles `SIGALRM` with `do_sig`, blocks it, arms the timer and waits in `sigsuspend`
with `SIGALRM` unblocked.  Then it disarms the timer and restores the action and the mask of its
caller, in this order.  Between any two of its calls the timer may expire, other signals may be
generated and delivered, and handlers may run and return.

The wait is what the order of the calls is about, and it never misses the alarm.  What comes
after the wait is another matter.  If it was another signal that has ended it, the timer may
still expire before it is disarmed: `SIGALRM` is blocked again by then, stays pending while
`do_sig` is replaced by the action of the caller, and is delivered under that action when the
mask is restored.  `late` records that this is going to happen.
-/

namespace LinuxExercise

namespace Mysleep

/-- `SIGALRM`. -/
def sigalrm : ℕ := 14

/-- The handlers of the program. -/
inductive Handler
  | doSig
  /-- Another one, which does not touch the mask, the actions or the timer. -/
  | other (id : ℕ)
  deriving DecidableEq, Repr

/-- Who has armed the timer of the process. -/
inductive Owner
  | caller
  | mysleep
  deriving DecidableEq, Repr

/-- The call that `mysleep` makes next. -/
inductive Pc
  /-- `sigaction(SIGALRM,&newact,&oldact)`. -/
  | line14
  /-- `sigprocmask(SIG_BLOCK,&newmask,&oldmask)`. -/
  | line19
  /-- `alarm(nSecs)`. -/
  | line21
  /-- `sigsuspend(&suspendmask)`. -/
  | line25
  /-- Inside `sigsuspend`. -/
  | suspended
  /-- `alarm(0)`. -/
  | line27
  /-- `sigaction(SIGALRM,&oldact,NULL)`. -/
  | line29
  /-- `sigprocmask(SIG_SETMASK,&oldmask,NULL)`. -/
  | line30
  | line31
  | returned
  /-- A signal was delivered whose action is the default. -/
  | terminated
  deriving DecidableEq, Repr

/-- `mysleep` has made its first call and has not returned. -/
def Pc.inside : Pc → Bool
  | .line14 | .returned | .terminated => false
  | _ => true

/-- The action of the caller has been restored. -/
def Pc.restored : Pc → Bool
  | .line30 | .line31 => true
  | _ => false

/-- One delivery of `SIGALRM`. -/
structure Delivery where
  disposition : Disposition Handler
  /-- The action of the caller had been restored. -/
  restored : Bool
  deriving DecidableEq, Repr

end Mysleep

open Mysleep in
/-- The process, with the local variables of `mysleep`. -/
structure Mysleep where
  pc : Pc
  signals : Signals ℕ Handler
  /-- Who has armed the timer, if it is armed. -/
  alarm : Option Owner
  oldact : Action ℕ Handler
  oldmask : Finset ℕ
  /-- The mask that `sigsuspend` restores. -/
  saved : Finset ℕ
  /-- History: `SIGALRM` was pending when line 29 was executed. -/
  late : Bool
  /-- History: the deliveries of `SIGALRM`. -/
  deliveries : List Delivery

namespace Mysleep

/-- `newact`: without `SA_NODEFER` the signal itself is blocked as well. -/
def newact : Action ℕ Handler where
  disposition := .handle .doSig
  blocks := {sigalrm}
  oneShot := false

/-- The next call of `mysleep`. -/
def line (nSecs : ℕ) (s : Mysleep) : Option Mysleep :=
  match s.pc with
  | .line14 => some { s with
      pc := .line19
      oldact := s.signals.action sigalrm
      signals := s.signals.sigaction sigalrm newact }
  | .line19 => some { s with
      pc := .line21
      oldmask := s.signals.mask
      signals := s.signals.setMask (insert sigalrm s.signals.mask) }
  | .line21 => some { s with pc := .line25, alarm := if nSecs = 0 then none else some .mysleep }
  | .line25 =>
    let suspendmask := s.oldmask.erase sigalrm
    some { s with
      pc := .suspended
      saved := s.signals.mask
      signals := s.signals.setMask suspendmask }
  | .line27 => some { s with pc := .line29, alarm := none }
  | .line29 => some { s with
      pc := .line30
      late := decide (sigalrm ∈ s.signals.pending)
      signals := s.signals.sigaction sigalrm s.oldact }
  | .line30 => some { s with pc := .line31, signals := s.signals.setMask s.oldmask }
  | .line31 => some { s with pc := .returned }
  | .suspended | .returned | .terminated => none

/-- Where the process is after a delivery: a handler ends `sigsuspend`. -/
def pcAfter (pc : Pc) : Disposition Handler → Pc
  | .dfl => .terminated
  | .ign => pc
  | .handle _ => if pc = .suspended then .line27 else pc

/-- The delivery of a signal; the handler restores the mask of the code it interrupts, or the one
that `sigsuspend` has saved. -/
def deliver (sig : ℕ) (s : Mysleep) : Option Mysleep :=
  let resume := if s.pc = .suspended then s.saved else s.signals.mask
  (s.signals.deliver sig resume).map fun (d, signals) =>
    { s with
      pc := pcAfter s.pc d
      signals := signals
      deliveries :=
        if sig = sigalrm then s.deliveries ++ [⟨d, s.pc.restored⟩] else s.deliveries }

inductive Label
  | line
  /-- The timer expires. -/
  | expire
  /-- Another signal is generated. -/
  | generate (sig : ℕ)
  | deliver (sig : ℕ)
  | handlerReturn
  deriving DecidableEq, Repr

/-- A step.  Code goes on only when no handler is running above it and no signal is waiting to
be delivered. -/
def next (nSecs : ℕ) (s : Mysleep) : Label → Option Mysleep
  | .line => if s.signals.frames = [] ∧ s.signals.Quiet then s.line nSecs else none
  | .expire =>
    if s.pc.inside ∧ s.alarm ≠ none then
      some { s with alarm := none, signals := s.signals.generate sigalrm }
    else none
  | .generate sig =>
    if s.pc.inside ∧ sig ≠ sigalrm then some { s with signals := s.signals.generate sig }
    else none
  | .deliver sig => if s.pc.inside then s.deliver sig else none
  | .handlerReturn =>
    if s.pc.inside ∧ s.signals.Quiet then
      s.signals.handlerReturn.map fun signals => { s with signals := signals }
    else none

/-- `mysleep` is called in the state `entry`; the caller may have an alarm of its own. -/
def start (entry : Signals ℕ Handler) (callerAlarm : Bool) : Mysleep where
  pc := .line14
  signals := { entry with frames := [] }
  alarm := if callerAlarm then some .caller else none
  oldact := newact
  oldmask := ∅
  saved := ∅
  late := false
  deliveries := []

/-- A call of `mysleep(nSecs)`. -/
def program (nSecs : ℕ) (entry : Signals ℕ Handler) (callerAlarm : Bool) :
    System Mysleep Label :=
  .ofStep (start entry callerAlarm) (next nSecs)

end Mysleep

end LinuxExercise
