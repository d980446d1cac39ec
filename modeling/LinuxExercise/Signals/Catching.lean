import LinuxExercise.Framework.JobControl
import LinuxExercise.Framework.Termination

/-!
# A handler that takes its time (`007singnal/04SIGINT_sigaction.c`, `04SIGUSR1_2_sigaction.c`)

The two programs catch `SIGINT` and `SIGUSR1` with the same handler, which prints the number of
the signal and counts down from three, sleeping in between, and blocks `SIGTSTP` and `SIGQUIT`
while it does.  Any signals may be sent at any time by anybody.

The blocks the handler prints are never mixed and never left unfinished for `SIGTSTP` or
`SIGQUIT`.  A signal that is sent while the handler runs is not lost: it stays pending, and the
handler is called once more however often it was sent (`catches_all`).  The mask is then the one
the process was started with, so that the next signal finds it as the first one did.

The handler's frame on the stack is an `Activation`; there is room for any number of them in a
state, and that there is never more than one is part of what is proved.
-/

namespace LinuxExercise

open JobProcess

namespace Catching

/-- Where `my_sa_handler` is. -/
inductive HandlerPc
  /-- `printf("sa_handler:%d\n",num)` -/
  | enter
  /-- `while(nIndex)` -/
  | test
  /-- `printf("%d\n",nIndex--)` -/
  | count
  /-- `sleep(1)` -/
  | sleep
  | ret
  deriving DecidableEq, Repr

/-- A call of `my_sa_handler`. -/
structure Activation where
  pc : HandlerPc
  num : ℕ
  nIndex : ℕ
  deriving DecidableEq, Repr

/-- A line that the handler prints. -/
inductive Line
  | saHandler (num : ℕ)
  | index (nIndex : ℕ)
  deriving DecidableEq, Repr

/-- The handlers of the program. -/
inductive Handler
  | mySaHandler
  deriving DecidableEq, Repr

/-- Where `main` is. -/
inductive Pc
  /-- `sigaction(SIGINT,&sigAction,NULL)` -/
  | sigaction
  /-- `while(1) sleep(1)` -/
  | loop
  deriving DecidableEq, Repr

end Catching

open Catching in
/-- The process. -/
structure Catching where
  pc : Pc
  process : JobProcess Handler
  /-- The running handlers, the innermost first. -/
  activations : List Activation
  stdout : List Line

namespace Catching

/-- `sigAction`: without `SA_NODEFER` the signal itself is blocked as well. -/
def sigAction (sig : ℕ) : Action ℕ Handler where
  disposition := .handle .mySaHandler
  blocks := {sig, sigtstp, sigquit}
  oneShot := false

/-- A statement of `main` other than the endless loop, which changes nothing. -/
def stepMain (sig : ℕ) (s : Catching) : Option Catching :=
  match s.pc with
  | .sigaction => some { s with
      pc := .loop
      process := { s.process with signals := s.process.signals.sigaction sig (sigAction sig) } }
  | .loop => none

/-- A statement of the innermost handler. -/
def stepHandler (s : Catching) : Option Catching :=
  match s.activations with
  | [] => none
  | a :: rest =>
    match a.pc with
    | .enter => some { s with
        activations := { a with pc := .test } :: rest
        stdout := s.stdout ++ [.saHandler a.num] }
    | .test => some { s with
        activations := { a with pc := if a.nIndex = 0 then .ret else .count } :: rest }
    | .count => some { s with
        activations := { a with pc := .sleep, nIndex := a.nIndex - 1 } :: rest
        stdout := s.stdout ++ [.index a.nIndex] }
    | .sleep => some { s with activations := { a with pc := .test } :: rest }
    | .ret => s.process.signals.handlerReturn.map fun signals =>
        { s with activations := rest, process := { s.process with signals := signals } }

/-- The calls of the handler after a delivery: a new one starts with `nIndex = 3`. -/
def activate (q : ℕ) : Disposition Handler → List Activation → List Activation
  | .handle .mySaHandler, activations => ⟨.enter, q, 3⟩ :: activations
  | _, activations => activations

/-- The delivery of a signal. -/
def deliver (q : ℕ) (s : Catching) : Option Catching :=
  (s.process.deliver q).map fun (d, process) =>
    { s with process := process, activations := activate q d s.activations }

inductive Label
  | main
  | handler
  /-- The signal is sent, by whomever. -/
  | send (sig : ℕ)
  | deliver (sig : ℕ)
  deriving DecidableEq, Repr

/-- A step.  `main` goes on when no handler is running. -/
def next (sig : ℕ) (s : Catching) : Label → Option Catching
  | .main => if s.process.Running ∧ s.activations = [] then s.stepMain sig else none
  | .handler => if s.process.Running then s.stepHandler else none
  | .send q =>
    if s.process.terminated = none then some { s with process := s.process.send q } else none
  | .deliver q => s.deliver q

/-- The process starts with the mask and the ignored signals of its parent. -/
def start (entry : Signals ℕ Handler) : Catching where
  pc := .sigaction
  process := ⟨{ entry with frames := [] }, false, none⟩
  activations := []
  stdout := []

/-- The program that catches `sig`. -/
def program (sig : ℕ) (entry : Signals ℕ Handler) : System Catching Label :=
  .ofStep (start entry) (next sig)

/-- What the handler prints in one call. -/
def block (sig : ℕ) : List Line := [.saHandler sig, .index 3, .index 2, .index 1]

/-- What a call has printed so far. -/
def Activation.printed (a : Activation) : List Line :=
  match a.pc with
  | .enter => []
  | _ => (block a.num).take (4 - a.nIndex)

/-! ## The invariant -/

/-- A call is somewhere in the countdown. -/
structure Activation.Ok (sig : ℕ) (a : Activation) : Prop where
  num : a.num = sig
  nIndex_le : a.nIndex ≤ 3
  enter : a.pc = .enter → a.nIndex = 3
  count : a.pc = .count → a.nIndex ≠ 0
  ret : a.pc = .ret → a.nIndex = 0

/-- Nothing but `sig` is caught, and that once `sigaction` has been called. -/
structure Catches (sig : ℕ) (s : Catching) : Prop where
  only : ∀ q f, (s.process.signals.action q).disposition = .handle f → q = sig ∧ s.pc = .loop
  action : s.pc = .loop → s.process.signals.action sig = sigAction sig

/-- One handler at most, under the mask of `sigAction`, and `k` whole blocks before it. -/
structure Inv (sig k : ℕ) (s : Catching) : Prop where
  catches : Catches sig s
  frames : s.process.signals.frames.length = s.activations.length
  one : s.activations = [] ∨ ∃ a, s.activations = [a] ∧ a.Ok sig ∧ s.pc = .loop ∧
    (sigAction sig).blocks ⊆ s.process.signals.mask
  stdout : s.stdout = (List.replicate k (block sig)).flatten ++
    (s.activations.map Activation.printed).flatten

section Inv

variable {sig k : ℕ} {s s' : Catching}

theorem inv_start {entry : Signals ℕ Handler}
    (hentry : ∀ q f, (entry.action q).disposition ≠ .handle f) : Inv sig 0 (start entry) where
  catches := ⟨fun q f hf => absurd hf (hentry q f), nofun⟩
  frames := rfl
  one := .inl rfl
  stdout := rfl

theorem Inv.main (hinv : Inv sig k s) (hidle : s.activations = [])
    (hstep : s.stepMain sig = some s') : Inv sig k s' := by
  unfold stepMain at hstep
  split at hstep
  · next hpc =>
    cases hstep
    refine ⟨⟨fun q f hf => ⟨?_, rfl⟩, fun _ => Signals.sigaction_action ..⟩, hinv.frames,
      .inl hidle, hinv.stdout⟩
    by_contra hne
    have hold : (s.process.signals.action q).disposition = .handle f := by
      simpa [Signals.sigaction, Function.update_of_ne hne] using hf
    have hloop := (hinv.catches.only q f hold).2
    rw [hpc] at hloop
    cases hloop
  · cases hstep

/-- A statement of the only handler that keeps it running. -/
theorem Inv.activation (hinv : Inv sig k s) {a : Activation} (ha : s.activations = [a])
    (a' : Activation) (lines : List Line) (hok : a'.Ok sig)
    (hprinted : a'.printed = a.printed ++ lines) :
    Inv sig k { s with activations := [a'], stdout := s.stdout ++ lines } := by
  obtain hnil | ⟨b, hb, -, hloop, hmask⟩ := hinv.one
  · rw [hnil] at ha
    cases ha
  · refine ⟨⟨hinv.catches.only, hinv.catches.action⟩, ?_, .inr ⟨a', rfl, hok, hloop, hmask⟩, ?_⟩
    · rw [hinv.frames, ha]
      rfl
    · simp only [hinv.stdout, ha, List.map_cons, List.map_nil, List.flatten_cons, List.flatten_nil,
        List.append_nil, hprinted, List.append_assoc]

/-- A statement of the handler: when it returns a block is complete. -/
theorem Inv.handler (hinv : Inv sig k s) (hstep : s.stepHandler = some s') :
    ∃ k', Inv sig k' s' ∧ k' + s'.activations.length = k + s.activations.length := by
  obtain hnil | ⟨a, ha, hok, hloop, hmask⟩ := hinv.one
  · simp [stepHandler, hnil] at hstep
  obtain ⟨hnum, hle, henter, hcount, hret⟩ := hok
  obtain ⟨pc, num, n⟩ := a
  simp only at hnum hle henter hcount hret
  subst hnum
  simp only [stepHandler, ha] at hstep
  cases pc with
  | enter =>
    cases hstep
    obtain rfl := henter rfl
    exact ⟨k, hinv.activation ha _ _ ⟨rfl, le_rfl, nofun, nofun, nofun⟩ rfl, by rw [ha]; rfl⟩
  | test =>
    cases hstep
    have hsame := hinv.activation ha ⟨if n = 0 then .ret else .count, num, n⟩ [] ?_ ?_
    · exact ⟨k, by simpa using hsame, by rw [ha]; rfl⟩
    · refine ⟨rfl, hle, ?_, ?_, ?_⟩
      all_goals
        by_cases hn : n = 0 <;> simp [hn]
    · by_cases hn : n = 0 <;> simp [hn, Activation.printed]
  | count =>
    cases hstep
    refine ⟨k, hinv.activation ha _ _ ⟨rfl, by simp only; omega, nofun, nofun, nofun⟩ ?_,
      by rw [ha]; rfl⟩
    have hpos := hcount rfl
    simp only [Activation.printed]
    interval_cases n <;> first | rfl | exact absurd rfl hpos
  | sleep =>
    cases hstep
    have hsame := hinv.activation ha ⟨.test, num, n⟩ [] ⟨rfl, hle, nofun, nofun, nofun⟩
      (by simp [Activation.printed])
    exact ⟨k, by simpa using hsame, by rw [ha]; rfl⟩
  | ret =>
    obtain ⟨signals, hreturn, rfl⟩ := Option.map_eq_some_iff.mp hstep
    obtain ⟨m, rest, hframes, rfl⟩ := Signals.handlerReturn_cases hreturn
    obtain rfl := hret rfl
    have hlen := hinv.frames
    rw [hframes, ha] at hlen
    refine ⟨k + 1, ⟨⟨hinv.catches.only, hinv.catches.action⟩, by simpa using hlen, .inl rfl, ?_⟩,
      by simp [ha]⟩
    rw [hinv.stdout, ha, List.replicate_succ', List.flatten_append]
    simp [Activation.printed, block]

/-- A delivered signal is not blocked by the handler. -/
theorem Inv.idle (hinv : Inv sig k s) {q : ℕ} (hq : q ∈ (sigAction sig).blocks)
    (hmask : q ∉ s.process.signals.mask) : s.activations = [] := by
  obtain hnil | ⟨a, -, -, -, hsub⟩ := hinv.one
  · exact hnil
  · exact absurd (hsub hq) hmask

theorem Inv.deliver (hinv : Inv sig k s) {q : ℕ} (hstep : s.deliver q = some s') :
    Inv sig k s' ∧ s'.activations.length ≤ s.activations.length + if q = sig then 1 else 0 := by
  obtain ⟨⟨d, process⟩, hdeliver, rfl⟩ := Option.map_eq_some_iff.mp hstep
  obtain ⟨-, -, hmask, hd, -, ⟨f, rfl, -, hmask', haction, hframes⟩ |
    ⟨hnot, hmask', haction, hframes⟩⟩ := JobProcess.deliver_cases hdeliver
  · obtain ⟨rfl, hloop⟩ := hinv.catches.only q f hd.symm
    have hact := hinv.catches.action hloop
    have hidle := hinv.idle (q := q) (by simp [sigAction]) hmask
    rw [hact] at hmask' haction
    have hsame : process.signals.action = s.process.signals.action := by
      rw [haction, ← Function.update_eq_self q s.process.signals.action, hact]
      simp [Action.taken, sigAction]
    refine ⟨⟨⟨fun r f' hf => ?_, fun _ => ?_⟩, ?_, .inr ⟨⟨.enter, q, 3⟩, ?_, ?_, hloop, ?_⟩, ?_⟩,
      by simp [activate]⟩
    · exact hinv.catches.only r f' (by rwa [← hsame])
    · simp only [hsame]
      exact hact
    · simp only [hframes, List.length_cons, hinv.frames, activate]
    · rw [hidle]
      rfl
    · exact ⟨rfl, le_rfl, fun _ => rfl, nofun, nofun⟩
    · simp only [hmask']
      exact Finset.subset_union_right
    · simpa [hidle, activate, Activation.printed] using hinv.stdout
  · have hactivations : activate q d s.activations = s.activations := by
      cases d with
      | handle f => exact absurd rfl (hnot f)
      | dfl | ign => rfl
    simp only [hactivations]
    refine ⟨⟨⟨fun r f' hf => ?_, fun hloop => ?_⟩, ?_, hinv.one.imp_right ?_, hinv.stdout⟩,
      Nat.le_add_right ..⟩
    · exact hinv.catches.only r f' (by rwa [← haction])
    · simp only [haction]
      exact hinv.catches.action hloop
    · simp only [hframes, hinv.frames]
    · rintro ⟨a, ha, hok, hloop, hsub⟩
      exact ⟨a, ha, hok, hloop, by simpa only [hmask'] using hsub⟩

theorem Inv.send (hinv : Inv sig k s) (q : ℕ) :
    Inv sig k { s with process := s.process.send q } := by
  obtain ⟨pending, heq, -⟩ := JobProcess.send_signals q s.process
  refine ⟨⟨fun r f hf => ?_, fun hloop => ?_⟩, ?_, hinv.one.imp_right ?_, hinv.stdout⟩
  · simp only [heq] at hf
    exact hinv.catches.only r f hf
  · simp only [heq]
    exact hinv.catches.action hloop
  · simp only [heq]
    exact hinv.frames
  · rintro ⟨a, ha, hok, hloop, hsub⟩
    exact ⟨a, ha, hok, hloop, by simpa only [heq] using hsub⟩

/-- A step begins a block when it delivers `sig`, and then only. -/
theorem Inv.step (hinv : Inv sig k s) {l : Label} (hstep : next sig s l = some s') :
    ∃ k', Inv sig k' s' ∧ k' + s'.activations.length ≤
      k + s.activations.length + if l = .deliver sig then 1 else 0 := by
  cases l with
  | main =>
    simp only [next] at hstep
    split at hstep
    · next hmain =>
      refine ⟨k, hinv.main hmain.2 hstep, ?_⟩
      unfold stepMain at hstep
      split at hstep <;> cases hstep
      exact Nat.le_add_right ..
    · cases hstep
  | handler =>
    simp only [next] at hstep
    split at hstep
    · obtain ⟨k', hinv', hk'⟩ := hinv.handler hstep
      exact ⟨k', hinv', hk'.le.trans (Nat.le_add_right ..)⟩
    · cases hstep
  | send q =>
    simp only [next] at hstep
    split at hstep
    · cases hstep
      exact ⟨k, hinv.send q, Nat.le_add_right ..⟩
    · cases hstep
  | deliver q =>
    obtain ⟨hinv', hlen⟩ := hinv.deliver hstep
    refine ⟨k, hinv', ?_⟩
    simp only [Label.deliver.injEq]
    omega

/-! ## What a step does to the signals -/

theorem signals_main (hstep : next sig s .main = some s') :
    s'.process.signals = s.process.signals.sigaction sig (sigAction sig) := by
  simp only [next] at hstep
  split at hstep
  · unfold stepMain at hstep
    split at hstep <;> cases hstep
    rfl
  · cases hstep

/-- Of the handler's statements only its return does anything to them. -/
theorem signals_handler (hstep : next sig s .handler = some s') :
    s'.process.signals = s.process.signals ∨
      s.process.signals.handlerReturn = some s'.process.signals := by
  simp only [next] at hstep
  split at hstep
  · unfold stepHandler at hstep
    split at hstep
    · cases hstep
    split at hstep
    case h_5 =>
      obtain ⟨signals, hreturn, rfl⟩ := Option.map_eq_some_iff.mp hstep
      exact .inr hreturn
    all_goals cases hstep
    all_goals exact .inl rfl
  · cases hstep

theorem process_send {q : ℕ} (hstep : next sig s (.send q) = some s') :
    s' = { s with process := s.process.send q } := by
  simp only [next] at hstep
  split at hstep
  · exact (Option.some.inj hstep).symm
  · cases hstep

/-! ## The mask that `main` finds again -/

/-- No step changes the mask under which `main` goes on when the handler has returned. -/
theorem base_step {l : Label} (hstep : next sig s l = some s') :
    s'.process.signals.base = s.process.signals.base := by
  cases l with
  | main =>
    rw [signals_main hstep]
    rfl
  | handler =>
    rcases signals_handler hstep with hsame | hreturn
    · rw [hsame]
    · exact Signals.handlerReturn_base hreturn
  | send q =>
    obtain rfl := process_send hstep
    obtain ⟨pending, heq, -⟩ := JobProcess.send_signals q s.process
    simp only [heq]
    rfl
  | deliver q =>
    obtain ⟨⟨d, process⟩, hdeliver, rfl⟩ := Option.map_eq_some_iff.mp hstep
    exact JobProcess.deliver_base hdeliver

/-- When no handler runs the mask is the one that `main` has had all along. -/
theorem Inv.mask_eq_base (hinv : Inv sig k s) (hidle : s.activations = []) :
    s.process.signals.mask = s.process.signals.base := by
  have hframes : s.process.signals.frames = [] := by
    rw [← List.length_eq_zero_iff, hinv.frames, hidle]
    rfl
  exact (Signals.base_of_nil hframes).symm

/-! ## What is sent and what is handled -/

/-- The signal is waiting to be handled. -/
def due (sig : ℕ) (s : Catching) : ℕ := if sig ∈ s.process.signals.pending then 1 else 0

/-- The signal is one that the programs catch. -/
def Caught (sig : ℕ) : Prop := sig = sigint ∨ sig = sigusr1

/-- Everything but `send` and `deliver` leaves the pending signals alone. -/
theorem pending_quiet {l : Label} (hstep : next sig s l = some s') (hsend : ∀ q, l ≠ .send q)
    (hdeliver : ∀ q, l ≠ .deliver q) :
    s'.process.signals.pending = s.process.signals.pending := by
  cases l with
  | main =>
    rw [signals_main hstep]
    rfl
  | handler =>
    rcases signals_handler hstep with hsame | hreturn
    · rw [hsame]
    · obtain ⟨m, rest, -, heq⟩ := Signals.handlerReturn_cases hreturn
      rw [heq]
  | send q => exact absurd rfl (hsend q)
  | deliver q => exact absurd rfl (hdeliver q)

/-- A delivery takes its signal from the pending ones. -/
theorem pending_deliver {q : ℕ} (hstep : next sig s (.deliver q) = some s') :
    q ∈ s.process.signals.pending ∧
      s'.process.signals.pending = s.process.signals.pending.erase q := by
  obtain ⟨⟨d, process⟩, hdeliver, rfl⟩ := Option.map_eq_some_iff.mp hstep
  obtain ⟨-, hmem, -, -, hpending, -⟩ := JobProcess.deliver_cases hdeliver
  exact ⟨hmem, hpending⟩

/-- A signal becomes pending by being sent, and it is pending until it is delivered. -/
theorem due_step {l : Label} (hstep : next sig s l = some s') :
    s'.due sig + (if l = .deliver sig then 1 else 0) ≤
      s.due sig + if l = .send sig then 1 else 0 := by
  cases l with
  | main | handler =>
    have hsame := pending_quiet hstep (by simp) (by simp)
    simp [due, hsame]
  | send q =>
    obtain rfl := process_send hstep
    by_cases hq : q = sig
    · simp only [due, hq, reduceCtorEq, if_false, if_true]
      split <;> omega
    · obtain ⟨pending, heq, -, hother⟩ := JobProcess.send_signals q s.process
      have himp : sig ∈ pending → sig ∈ s.process.signals.pending := fun hmem =>
        ((hother sig (Ne.symm hq)).mp hmem).1
      simp only [due, heq, Label.send.injEq, hq, reduceCtorEq, if_false]
      by_cases hmem : sig ∈ pending
      · simp [hmem, himp hmem]
      · simp [hmem]
  | deliver q =>
    obtain ⟨hmem, hpending⟩ := pending_deliver hstep
    by_cases hq : q = sig
    · subst hq
      simp [due, hpending, hmem]
    · simp [due, hpending, hq, Ne.symm hq]

/-- Until it is delivered a pending signal stays pending, whatever else is sent. -/
theorem mem_pending_step (hcaught : Caught sig) {l : Label} (hstep : next sig s l = some s')
    (hmem : sig ∈ s.process.signals.pending) (hl : l ≠ .deliver sig) :
    sig ∈ s'.process.signals.pending := by
  cases l with
  | main | handler => rwa [pending_quiet hstep (by simp) (by simp)]
  | send q =>
    obtain rfl := process_send hstep
    have hjob : sig ∉ stopSignals ∧ sig ≠ sigcont := by
      rcases hcaught with rfl | rfl <;> decide
    exact JobProcess.mem_pending_send hmem hjob.1 hjob.2
  | deliver q =>
    obtain ⟨-, hpending⟩ := pending_deliver hstep
    rw [hpending]
    refine Finset.mem_erase_of_ne_of_mem ?_ hmem
    rintro rfl
    exact hl rfl

/-- Once it is caught a signal that is sent becomes pending. -/
theorem mem_pending_of_send (hinv : Inv sig k s) (hloop : s.pc = .loop)
    (hstep : next sig s (.send sig) = some s') : sig ∈ s'.process.signals.pending := by
  obtain rfl := process_send hstep
  have hact : (s.process.signals.action sig).disposition = .handle .mySaHandler := by
    rw [hinv.catches.action hloop]
    rfl
  exact JobProcess.mem_pending_of_handled hact

end Inv

section Run

variable {sig : ℕ} {entry : Signals ℕ Handler} {s : Catching}

/-- How often the signal has been sent. -/
def sends (sig : ℕ) (h : List (Event Catching Label)) : ℕ :=
  h.countP fun e => e.label = .send sig

/-- The mask of the start is what the handler's return leads back to, in every run. -/
theorem base_of_run {h : List (Event Catching Label)} (hrun : (program sig entry).Run h s) :
    s.process.signals.base = entry.mask := by
  refine hrun.invariant (I := fun s => s.process.signals.base = entry.mask) ?_ ?_
  · rintro s rfl
    rfl
  · intro s l s' _ hstep hbase
    exact (base_step hstep).trans hbase

/-- Along a run no more blocks are begun than signals have been sent. -/
theorem inv_of_run (hentry : ∀ q f, (entry.action q).disposition ≠ .handle f)
    {h : List (Event Catching Label)} (hrun : (program sig entry).Run h s) :
    ∃ k, Inv sig k s ∧ k + s.activations.length + s.due sig ≤
      sends sig h + (start entry).due sig := by
  refine hrun.ledger (J := fun h s => ∃ k, Inv sig k s ∧ k + s.activations.length + s.due sig ≤
    sends sig h + (start entry).due sig) ?_ ?_
  · rintro s rfl
    exact ⟨0, inv_start hentry, by simp [start, sends]⟩
  · rintro h s l s' - hstep ⟨k, hinv, hle⟩
    obtain ⟨k', hinv', hk'⟩ := hinv.step hstep
    have hdue := due_step hstep
    refine ⟨k', hinv', ?_⟩
    simp only [sends, List.countP_append, List.countP_singleton, decide_eq_true_eq] at hle ⊢
    omega

/-- What has been sent is pending until it is delivered. -/
theorem pending_or_delivered (hcaught : Caught sig)
    (hentry : ∀ q f, (entry.action q).disposition ≠ .handle f)
    {pre post : List (Event Catching Label)} {e : Event Catching Label}
    (hrun : (program sig entry).Run (pre ++ [e] ++ post) s) (hsend : e.label = .send sig)
    (hloop : e.pre.pc = .loop) :
    sig ∈ s.process.signals.pending ∨ ∃ e' ∈ post, e'.label = .deliver sig := by
  refine hrun.after (J := fun h' s => sig ∈ s.process.signals.pending ∨
    ∃ e' ∈ h', e'.label = .deliver sig) (fun s hr => .inl ?_) fun h' s l s' _ hstep hJ => ?_
  · obtain ⟨hpre, hstep, rfl⟩ := hr.of_snoc
    obtain ⟨k, hinv, -⟩ := inv_of_run hentry hpre
    rw [hsend] at hstep
    exact mem_pending_of_send hinv hloop hstep
  · rcases hJ with hmem | ⟨e', he', hlabel⟩
    · by_cases hl : l = .deliver sig
      · exact .inr ⟨_, List.mem_append_right _ (List.mem_singleton_self _), hl⟩
      · exact .inl (mem_pending_step hcaught hstep hmem hl)
    · exact .inr ⟨e', List.mem_append_left _ he', hlabel⟩

end Run

/-! ## The handler comes to its end -/

/-- Statements left to a call of the handler. -/
def Activation.rank (a : Activation) : ℕ :=
  match a.pc with
  | .enter => 12
  | .test => 3 * a.nIndex + 2
  | .count => 3 * a.nIndex + 1
  | .sleep => 3 * a.nIndex + 3
  | .ret => 1

/-- Statements left to the handler when nothing more is sent. -/
def rank (s : Catching) : ℕ :=
  13 * s.process.signals.pending.card + (s.activations.map Activation.rank).sum

/-- The step is one of the handler, or a delivery. -/
def isHandling (e : Event Catching Label) : Bool :=
  match e.label with
  | .handler | .deliver _ => true
  | .main | .send _ => false

section Rank

variable {sig k : ℕ} {s s' : Catching}

theorem rank_handler (hinv : Inv sig k s) (hstep : next sig s .handler = some s') :
    s'.rank < s.rank := by
  have hpending := pending_quiet hstep (by simp) (by simp)
  suffices hlower : (s'.activations.map Activation.rank).sum <
      (s.activations.map Activation.rank).sum by
    rw [rank, rank, hpending]
    omega
  simp only [next] at hstep
  split at hstep
  · obtain hnil | ⟨⟨pc, num, n⟩, ha, hok, -, -⟩ := hinv.one
    · simp [stepHandler, hnil] at hstep
    simp only [stepHandler, ha] at hstep
    rw [ha]
    cases pc with
    | enter =>
      cases hstep
      have hn : n = 3 := hok.enter rfl
      simp [Activation.rank, hn]
    | test =>
      cases hstep
      by_cases hn : n = 0 <;> simp [Activation.rank, hn]
    | count =>
      cases hstep
      have hn : n ≠ 0 := hok.count rfl
      simp only [Activation.rank, List.map_cons, List.map_nil, List.sum_cons, List.sum_nil]
      omega
    | sleep =>
      cases hstep
      simp [Activation.rank]
    | ret =>
      obtain ⟨signals, -, rfl⟩ := Option.map_eq_some_iff.mp hstep
      simp [Activation.rank]
  · cases hstep

theorem rank_deliver {q : ℕ} (hstep : next sig s (.deliver q) = some s') : s'.rank < s.rank := by
  obtain ⟨hmem, hpending⟩ := pending_deliver hstep
  have hcard := Finset.card_erase_add_one hmem
  have hactivations : (s'.activations.map Activation.rank).sum ≤
      (s.activations.map Activation.rank).sum + 12 := by
    obtain ⟨⟨d, process⟩, -, rfl⟩ := Option.map_eq_some_iff.mp hstep
    cases d with
    | handle f => simp [activate, Activation.rank, Nat.add_comm]
    | dfl | ign => exact Nat.le_add_right ..
  rw [rank, rank, hpending]
  omega

/-- Where neither the handler nor a delivery can go on the handler has returned and nothing is
left to deliver, unless the process is stopped or terminated. -/
theorem Inv.handled (hinv : Inv sig k s) (hrunning : s.process.Running)
    (hstuck : ∀ l s', next sig s l = some s' → isHandling ⟨s, l, s'⟩ = false) :
    s.activations = [] ∧ s.process.signals.mask = s.process.signals.base ∧
      s.process.signals.Quiet := by
  have hidle : s.activations = [] := by
    by_contra hne
    obtain ⟨a, ha, -, -, -⟩ := hinv.one.resolve_left hne
    have hgo : ∃ s', s.stepHandler = some s' := by
      have hlen := hinv.frames
      rw [ha] at hlen
      obtain ⟨m, hm⟩ := List.length_eq_one_iff.mp hlen
      obtain ⟨pc, num, n⟩ := a
      cases pc <;> simp [stepHandler, ha, Signals.handlerReturn, hm]
    obtain ⟨s', hs'⟩ := hgo
    have hfalse := hstuck .handler s' (by rw [next, if_pos hrunning, hs'])
    cases hfalse
  refine ⟨hidle, hinv.mask_eq_base hidle, fun q hq => ?_⟩
  by_contra hmask
  obtain ⟨d, process, hdeliver⟩ := JobProcess.exists_deliver hrunning hq hmask
  have hfalse := hstuck (.deliver q) _ (Option.map_eq_some_iff.mpr ⟨_, hdeliver, rfl⟩)
  cases hfalse

end Rank

/-- **The programs catch all their signals, and print whole blocks.**  In every run, whatever is
sent by whomever and whenever: the handler does not run twice at a time; what was printed is whole
blocks and what the running handler has printed so far, no more of them than the signal was sent,
counting the one that may have been pending at the start; `SIGTSTP` and `SIGQUIT` take effect
between two blocks only; a signal that was sent since it is caught is pending or was delivered
afterwards.  From every state the steps of the handler and the deliveries are bounded, whatever
their order, and lead to one where, unless the process was stopped or terminated, the handler has
returned, the mask is the one of the start again and nothing is pending but what that mask blocks:
the signal has been handled, if it was not blocked from the start. -/
theorem catches_all (sig : ℕ) (hcaught : Caught sig) (entry : Signals ℕ Handler)
    (hentry : ∀ q f, (entry.action q).disposition ≠ .handle f)
    (h : List (Event Catching Label)) (s : Catching) (hrun : (program sig entry).Run h s) :
    s.activations.length ≤ 1 ∧
    (∃ k, s.stdout = (List.replicate k (block sig)).flatten ++
        (s.activations.map Activation.printed).flatten ∧
      k + s.activations.length ≤ sends sig h + (start entry).due sig) ∧
    (∀ e ∈ h, e.label = .deliver sigtstp ∨ e.label = .deliver sigquit →
      ∃ k, e.pre.stdout = (List.replicate k (block sig)).flatten) ∧
    (∀ pre e post, h = pre ++ [e] ++ post → e.label = .send sig → e.pre.pc = .loop →
      sig ∈ s.process.signals.pending ∨ ∃ e' ∈ post, e'.label = .deliver sig) ∧
    (program sig entry).Completes (isHandling · = true) (fun _ s' => s'.process.Running →
      s'.activations = [] ∧ s'.process.signals.mask = entry.mask ∧
        s'.process.signals.Quiet ∧ (sig ∉ entry.mask → sig ∉ s'.process.signals.pending)) s := by
  obtain ⟨k, hinv, hle⟩ := inv_of_run hentry hrun
  refine ⟨?_, ⟨k, hinv.stdout, by omega⟩, fun e he hlabel => ?_, fun pre e post hh => ?_, ?_⟩
  · obtain hnil | ⟨a, ha, -⟩ := hinv.one
    · simp [hnil]
    · simp [ha]
  · obtain ⟨h₀, -, hpre, hstep⟩ := hrun.of_mem he
    obtain ⟨j, hj, -⟩ := inv_of_run hentry hpre
    have hidle : e.pre.activations = [] := by
      rcases hlabel with hlabel | hlabel
      all_goals
        rw [hlabel] at hstep
        obtain ⟨⟨d, process⟩, hdeliver, -⟩ := Option.map_eq_some_iff.mp hstep
        exact hj.idle (by simp [sigAction]) (JobProcess.deliver_cases hdeliver).2.2.1
    exact ⟨j, by simpa [hidle] using hj.stdout⟩
  · subst hh
    exact pending_or_delivered hcaught hentry hrun
  · refine System.completes_of_rank rank
      (I := fun s => (∃ k, Inv sig k s) ∧ s.process.signals.base = entry.mask)
      (fun s l s' hstep _ hI => ?_) (fun s l s' hstep hl hI => ?_)
      (fun h' s' _ hI hstuck hrunning => ?_) ⟨⟨k, hinv⟩, base_of_run hrun⟩
    · obtain ⟨⟨j, hj⟩, hbase⟩ := hI
      obtain ⟨j', hj', -⟩ := hj.step hstep
      exact ⟨⟨j', hj'⟩, (base_step hstep).trans hbase⟩
    · obtain ⟨⟨j, hj⟩, -⟩ := hI
      cases l with
      | main | send => cases hl
      | handler => exact rank_handler hj hstep
      | deliver q => exact rank_deliver hstep
    · obtain ⟨⟨j, hj⟩, hbase⟩ := hI
      obtain ⟨hidle, hmask, hquiet⟩ :=
        hj.handled hrunning fun l s'' hstep => by simpa using hstuck l s'' hstep
      rw [hbase] at hmask
      exact ⟨hidle, hmask, hquiet, fun hblocked hmem => hblocked (hmask ▸ hquiet sig hmem)⟩

/-- No signal is blocked, pending or ignored. -/
def plainEntry : Signals ℕ Handler := ⟨∅, ∅, fun _ => ⟨.dfl, ∅, false⟩, []⟩

/-- `SIGINT` is sent twice while the handler runs, and handled once more. -/
theorem catches_all_coalesced : ∃ h s, (program sigint plainEntry).Run h s ∧ sends sigint h = 3 ∧
    s.stdout = block sigint ++ [.saHandler sigint] ∧ s.activations.length ≤ 1 := by
  obtain ⟨h, s, hrun, htest⟩ := System.exists_run_of_exec (start plainEntry) (next sigint)
    ([.main, .send sigint, .deliver sigint, .handler, .send sigint, .send sigint] ++
      List.replicate 11 .handler ++ [.deliver sigint, .handler])
    (fun h s => decide (sends sigint h = 3) &&
      decide (s.stdout = block sigint ++ [.saHandler sigint])) (by decide +kernel)
  simp only [Bool.and_eq_true, decide_eq_true_eq] at htest
  exact ⟨h, s, hrun, htest.1, htest.2,
    (catches_all sigint (.inl rfl) plainEntry nofun h s hrun).1⟩

end Catching

end LinuxExercise
