import LinuxExercise.Framework.JobControl
import LinuxExercise.Framework.Termination

/-!
# The pending signals, printed (`007singnal/03sigprocmask.c`)

The program blocks `SIGINT`, `SIGTSTP`, `SIGTERM` and `SIGQUIT`, and for ever asks for the pending
signals and prints them, one digit for each of the signals 1 to 32, with two spaces after every
eighth.  It has `SIGSTOP` in its set as well, which cannot be blocked.  Any signals may be sent at
any time by anybody.

None of the four takes effect once they are blocked.  The output is one line for each call of
`sigpending`, and the digit of one of the four tells whether it has been sent: it is `1` from the
next line on, and for ever but for `SIGTSTP`, which a `SIGCONT` discards (`pending_shown`).
-/

namespace LinuxExercise

open JobProcess

namespace PendSignals

/-- Where the program is. -/
inductive Pc
  /-- `sigprocmask(SIG_BLOCK,&sigProcMask,NULL)` -/
  | sigprocmask
  /-- `sigpending(&sigPending)` -/
  | sigpending
  /-- `nIndex<33` -/
  | test
  /-- `if( sigismember(sigPending,nIndex) )` -/
  | digit
  /-- `if(!(++nBlockTemp%8))`, and `nIndex++` -/
  | gap
  /-- `printf("\n")` -/
  | newline
  | sleep
  deriving DecidableEq, Repr

end PendSignals

open PendSignals in
/-- The process; it has no handlers. -/
structure PendSignals where
  pc : Pc
  process : JobProcess Empty
  sigPending : Finset ℕ
  nIndex : ℕ
  nBlockTemp : ℕ
  stdout : List Char

namespace PendSignals

def sigProcMask : Finset ℕ := {sigint, sigtstp, sigterm, sigstop, sigquit}

/-- `sigismember(sigPending,nIndex)`, printed. -/
def digit (sigPending : Finset ℕ) (nIndex : ℕ) : Char := if nIndex ∈ sigPending then '1' else '0'

/-- What is printed after the digit. -/
def gap (nBlockTemp : ℕ) : List Char := if nBlockTemp % 8 = 0 then [' ', ' '] else []

/-- A statement of `main` or of `printPendSignalSet`. -/
def stepMain (s : PendSignals) : PendSignals :=
  match s.pc with
  | .sigprocmask => { s with pc := .sigpending, process := s.process.block sigProcMask }
  | .sigpending => { s with
      pc := .test, sigPending := s.process.sigpending, nIndex := 1, nBlockTemp := 0 }
  | .test => { s with pc := if s.nIndex < 33 then .digit else .newline }
  | .digit => { s with pc := .gap, stdout := s.stdout ++ [digit s.sigPending s.nIndex] }
  | .gap => { s with
      pc := .test
      nBlockTemp := s.nBlockTemp + 1
      nIndex := s.nIndex + 1
      stdout := s.stdout ++ gap (s.nBlockTemp + 1) }
  | .newline => { s with pc := .sleep, stdout := s.stdout ++ ['\n'] }
  | .sleep => { s with pc := .sigpending }

inductive Label
  | main
  /-- The signal is sent, by whomever. -/
  | send (sig : ℕ)
  | deliver (sig : ℕ)
  deriving DecidableEq, Repr

def next (s : PendSignals) : Label → Option PendSignals
  | .main => if s.process.Running then some s.stepMain else none
  | .send q =>
    if s.process.terminated = none then some { s with process := s.process.send q } else none
  | .deliver q => (s.process.deliver q).map fun (_, process) => { s with process := process }

/-- The process starts with the mask and the ignored signals of its parent. -/
def start (entry : Signals ℕ Empty) : PendSignals where
  pc := .sigprocmask
  process := ⟨{ entry with frames := [] }, false, none⟩
  sigPending := ∅
  nIndex := 0
  nBlockTemp := 0
  stdout := []

def program (entry : Signals ℕ Empty) : System PendSignals Label := .ofStep (start entry) next

/-! ## A line -/

/-- What `printPendSignalSet` prints from `nIndex` on. -/
def lineFrom (a : Finset ℕ) (nIndex : ℕ) : List Char :=
  (List.range' nIndex (33 - nIndex)).flatMap (fun i => digit a i :: gap i) ++ ['\n']

/-- What `printPendSignalSet` prints. -/
def line (a : Finset ℕ) : List Char := lineFrom a 1

/-- Where a line has the digit of a signal. -/
def column (sig : ℕ) : ℕ := (sig - 1) + 2 * ((sig - 1) / 8)

section Line

variable {a : Finset ℕ} {n : ℕ}

theorem lineFrom_of_lt (h : n < 33) : lineFrom a n = digit a n :: gap n ++ lineFrom a (n + 1) := by
  have hlen : 33 - n = (33 - (n + 1)) + 1 := by omega
  rw [lineFrom, lineFrom, hlen, List.range'_succ, List.flatMap_cons]
  simp only [List.append_assoc]

theorem lineFrom_end : lineFrom a 33 = ['\n'] := rfl

/-- Before the digit of the next signal there are the digits and gaps of `n` signals. -/
theorem line_eq_append (hn : n ≤ 32) :
    ∃ row, line a = row ++ lineFrom a (n + 1) ∧ row.length = n + 2 * (n / 8) := by
  induction n with
  | zero => exact ⟨[], rfl, rfl⟩
  | succ n ih =>
    obtain ⟨row, hrow, hlen⟩ := ih (by omega)
    refine ⟨row ++ digit a (n + 1) :: gap (n + 1), ?_, ?_⟩
    · rw [hrow, lineFrom_of_lt (by omega), List.append_assoc]
    · simp only [List.length_append, List.length_cons, hlen, gap]
      split
      · simp only [List.length_cons, List.length_nil]
        omega
      · simp only [List.length_nil]
        omega

/-- A line tells of each signal whether it is in the set. -/
theorem line_column {sig : ℕ} (hpos : 1 ≤ sig) (hle : sig ≤ 32) :
    (line a)[column sig]? = some '1' ↔ sig ∈ a := by
  obtain ⟨row, hrow, hlen⟩ := line_eq_append (a := a) (n := sig - 1) (by omega)
  have hsig : sig - 1 + 1 = sig := by omega
  rw [hsig, lineFrom_of_lt (by omega)] at hrow
  rw [hrow, column, ← hlen, List.getElem?_append_right le_rfl, Nat.sub_self]
  by_cases hmem : sig ∈ a <;> simp [digit, hmem]

end Line

/-! ## The output -/

/-- What is left to print of the line that has been begun. -/
def left (s : PendSignals) : List Char :=
  match s.pc with
  | .sigprocmask | .sigpending | .sleep => []
  | .test | .digit => lineFrom s.sigPending s.nIndex
  | .gap => gap s.nIndex ++ lineFrom s.sigPending (s.nIndex + 1)
  | .newline => ['\n']

/-- What the calls of `sigpending` have returned. -/
def calls (h : List (Event PendSignals Label)) : List (Finset ℕ) :=
  h.filterMap fun e =>
    if e.label = .main ∧ e.pre.pc = .sigpending then some e.pre.process.sigpending else none

/-- The loop of `printPendSignalSet` counts its rounds twice. -/
structure Counts (s : PendSignals) : Prop where
  le : s.pc = .test → s.nIndex ≤ 33
  lt : s.pc = .digit ∨ s.pc = .gap → s.nIndex < 33
  block : s.pc = .test ∨ s.pc = .digit ∨ s.pc = .gap → s.nIndex = s.nBlockTemp + 1

section Output

variable {s s' : PendSignals}

/-- A signal that is sent or delivered changes nothing but the process. -/
theorem next_process {l : Label} (hstep : next s l = some s') (hl : l ≠ .main) :
    ∃ process, s' = { s with process := process } := by
  cases l with
  | main => exact absurd rfl hl
  | send q =>
    simp only [next] at hstep
    split at hstep <;> cases hstep
    exact ⟨_, rfl⟩
  | deliver q =>
    obtain ⟨⟨d, process⟩, -, rfl⟩ := Option.map_eq_some_iff.mp hstep
    exact ⟨process, rfl⟩

theorem next_main (hstep : next s .main = some s') : s.process.Running ∧ s' = s.stepMain := by
  simp only [next] at hstep
  split at hstep
  · next hrunning => exact ⟨hrunning, (Option.some.inj hstep).symm⟩
  · cases hstep

theorem Counts.stepMain (hcounts : Counts s) : Counts s.stepMain := by
  obtain ⟨hle, hlt, hblock⟩ := hcounts
  obtain ⟨pc, process, sigPending, nIndex, nBlockTemp, stdout⟩ := s
  cases pc with
  | sigprocmask | newline | sleep => constructor <;> simp [PendSignals.stepMain]
  | sigpending => constructor <;> simp [PendSignals.stepMain]
  | test =>
    have hb := hblock (.inl rfl)
    by_cases hn : nIndex < 33
    · exact ⟨by simp [PendSignals.stepMain, hn], fun _ => hn, fun _ => hb⟩
    · constructor <;> simp [PendSignals.stepMain, hn]
  | digit => exact ⟨nofun, fun _ => hlt (.inl rfl), fun _ => hblock (.inr (.inl rfl))⟩
  | gap =>
    have hn := hlt (.inr rfl)
    have hb := hblock (.inr (.inr rfl))
    exact ⟨fun _ => hn, by simp [PendSignals.stepMain], fun _ => congrArg (· + 1) hb⟩

theorem Counts.step (hcounts : Counts s) {l : Label} (hstep : next s l = some s') :
    Counts s' := by
  by_cases hl : l = .main
  · subst hl
    obtain ⟨-, rfl⟩ := next_main hstep
    exact hcounts.stepMain
  · obtain ⟨process, rfl⟩ := next_process hstep hl
    exact ⟨hcounts.le, hcounts.lt, hcounts.block⟩

/-- A statement prints the first part of what is left; a call of `sigpending` begins a line. -/
theorem stdout_main (hcounts : Counts s) : s.stepMain.stdout ++ s.stepMain.left =
    s.stdout ++ s.left ++ if s.pc = .sigpending then line s.process.sigpending else [] := by
  obtain ⟨hle, hlt, hblock⟩ := hcounts
  obtain ⟨pc, process, sigPending, nIndex, nBlockTemp, stdout⟩ := s
  cases pc with
  | sigprocmask | newline | sleep => simp [stepMain, left]
  | sigpending => simp [stepMain, left, line]
  | test =>
    by_cases hn : nIndex < 33
    · simp [stepMain, left, hn]
    · obtain rfl : nIndex = 33 := le_antisymm (hle rfl) (not_lt.mp hn)
      simp [stepMain, left, lineFrom_end]
  | digit => simp [stepMain, left, lineFrom_of_lt (hlt (.inl rfl))]
  | gap =>
    obtain rfl : nIndex = nBlockTemp + 1 := hblock (.inr (.inr rfl))
    simp [stepMain, left]

theorem calls_snoc (h : List (Event PendSignals Label)) (e : Event PendSignals Label) :
    calls (h ++ [e]) = calls h ++
      if e.label = .main ∧ e.pre.pc = .sigpending then [e.pre.process.sigpending] else [] := by
  rw [calls, List.filterMap_append]
  split <;> simp_all [calls]

variable {entry : Signals ℕ Empty} {h : List (Event PendSignals Label)}

theorem counts_of_run (hrun : (program entry).Run h s) : Counts s := by
  refine hrun.invariant (fun s hs => ?_) fun s l s' _ hstep hcounts => hcounts.step hstep
  obtain rfl : s = start entry := hs
  exact ⟨nofun, by simp [start], by simp [start]⟩

/-- The output is one line for each call. -/
theorem stdout_of_run (hrun : (program entry).Run h s) :
    s.stdout ++ s.left = ((calls h).map line).flatten := by
  refine hrun.ledger (J := fun h s => s.stdout ++ s.left = ((calls h).map line).flatten) ?_ ?_
  · rintro s rfl
    rfl
  · rintro h s l s' hr hstep hout
    rw [calls_snoc, List.map_append, List.flatten_append, ← hout]
    by_cases hl : l = .main
    · subst hl
      obtain ⟨-, rfl⟩ := next_main hstep
      rw [stdout_main (counts_of_run hr)]
      by_cases hpc : s.pc = .sigpending <;> simp [hpc]
    · obtain ⟨process, rfl⟩ := next_process hstep hl
      simp [hl, left]

end Output

/-! ## What is pending -/

/-- The signals that are in fact blocked. -/
def shielded : Finset ℕ := sigProcMask \ {sigkill, sigstop}

/-- The step makes the signal pending for good, or finds it so: it is sent when it is blocked, or
it is pending when it is blocked. -/
def Raises (q : ℕ) (e : Event PendSignals Label) : Prop :=
  e.label = .send q ∧ e.pre.pc ≠ .sigprocmask ∨
    e.label = .main ∧ e.pre.pc = .sigprocmask ∧ q ∈ e.pre.process.signals.pending

/-- The step sends a signal that discards `q`. -/
def Discards (q : ℕ) (e : Event PendSignals Label) : Prop :=
  ∃ r, e.label = .send r ∧ q ∈ discarded r

/-- The signal has been raised, and not been discarded since. -/
def Waiting (q : ℕ) (h : List (Event PendSignals Label)) : Prop :=
  ∃ h₁ e h₂, h = h₁ ++ [e] ++ h₂ ∧ Raises q e ∧ ∀ e' ∈ h₂, ¬ Discards q e'

/-- Outside job control nothing is discarded. -/
theorem not_discards {q : ℕ} (hstop : q ∉ stopSignals) (hcont : q ≠ sigcont)
    (e : Event PendSignals Label) : ¬ Discards q e := by
  rintro ⟨r, -, hmem⟩
  exact notMem_discarded hstop hcont hmem

theorem waiting_snoc {q : ℕ} {h : List (Event PendSignals Label)} {e : Event PendSignals Label} :
    Waiting q (h ++ [e]) ↔ Raises q e ∨ Waiting q h ∧ ¬ Discards q e := by
  constructor
  · rintro ⟨h₁, e₁, h₂, heq, hraises, hkeep⟩
    induction h₂ using List.reverseRecOn with
    | nil =>
      rw [List.append_nil] at heq
      obtain ⟨-, he⟩ := List.append_inj' heq rfl
      obtain rfl := List.singleton_inj.mp he
      exact .inl hraises
    | append_singleton h₂ e₂ _ =>
      rw [← List.append_assoc] at heq
      obtain ⟨rfl, he⟩ := List.append_inj' heq rfl
      obtain rfl := List.singleton_inj.mp he
      obtain ⟨hold, hlast⟩ := List.forall_mem_append.mp hkeep
      exact .inr ⟨⟨h₁, e₁, h₂, rfl, hraises, hold⟩, hlast e (List.mem_singleton_self e)⟩
  · rintro (hraises | ⟨⟨h₁, e₁, h₂, rfl, hraises, hkeep⟩, hnot⟩)
    · exact ⟨h, e, [], (List.append_nil _).symm, hraises, nofun⟩
    · exact ⟨h₁, e₁, h₂ ++ [e], by simp only [List.append_assoc], hraises,
        List.forall_mem_append.mpr ⟨hkeep, List.forall_mem_singleton.mpr hnot⟩⟩

/-- Before the signals are blocked none has been raised; then they stay blocked, and those are
pending that have been. -/
structure Known (h : List (Event PendSignals Label)) (s : PendSignals) : Prop where
  none : s.pc = .sigprocmask → ∀ q, ¬ Waiting q h
  blocked : s.pc ≠ .sigprocmask → shielded ⊆ s.process.signals.mask
  pending : s.pc ≠ .sigprocmask → ∀ q ∈ shielded, q ∈ s.process.signals.pending ↔ Waiting q h

section Known

variable {h : List (Event PendSignals Label)} {s s' : PendSignals}

theorem stepMain_pc (s : PendSignals) : s.stepMain.pc ≠ .sigprocmask := by
  obtain ⟨pc, process, sigPending, nIndex, nBlockTemp, stdout⟩ := s
  cases pc with
  | test => by_cases hn : nIndex < 33 <;> simp [stepMain, hn]
  | _ => simp [stepMain]

theorem stepMain_process (h : s.pc ≠ .sigprocmask) : s.stepMain.process = s.process := by
  unfold stepMain
  split
  · next hpc => exact absurd hpc h
  all_goals rfl

theorem Known.main (hknown : Known h s) (e : Event PendSignals Label) (hpre : e.pre = s)
    (hlabel : e.label = .main) : Known (h ++ [e]) s.stepMain := by
  have hdiscards : ∀ q, ¬ Discards q e := fun q hq => by
    obtain ⟨r, hr, -⟩ := hq
    rw [hlabel] at hr
    cases hr
  by_cases hpc : s.pc = .sigprocmask
  · refine ⟨fun h => absurd h (stepMain_pc s), fun _ => ?_, fun _ q hq => ?_⟩
    · simp only [stepMain, hpc, block, Signals.setMask]
      exact Finset.subset_union_right
    · rw [waiting_snoc]
      simp [stepMain, hpc, block, Signals.setMask, Raises, hlabel, hpre, hknown.none hpc q]
  · have hprocess := stepMain_process hpc
    refine ⟨fun h => absurd h (stepMain_pc s), fun _ => ?_, fun _ q hq => ?_⟩
    · rw [hprocess]
      exact hknown.blocked hpc
    · rw [hprocess, hknown.pending hpc q hq, waiting_snoc]
      simp [Raises, hlabel, hpre, hpc, hdiscards q]

theorem Known.send (hknown : Known h s) (q : ℕ) (e : Event PendSignals Label) (hpre : e.pre = s)
    (hlabel : e.label = .send q) : Known (h ++ [e]) { s with process := s.process.send q } := by
  obtain ⟨pending, heq, -⟩ := send_signals q s.process
  refine ⟨fun hpc r hr => ?_, fun hpc => ?_, fun hpc r hr => ?_⟩
  · obtain hraises | ⟨hold, -⟩ := waiting_snoc.mp hr
    · simp only [Raises, hpre, hlabel, reduceCtorEq, false_and, or_false] at hraises
      exact hraises.2 hpc
    · exact hknown.none hpc r hold
  · simp only [heq]
    exact hknown.blocked hpc
  · simp only at hpc
    rw [waiting_snoc, mem_pending_send_of_blocked (hknown.blocked hpc hr),
      hknown.pending hpc r hr]
    simp [Raises, Discards, hlabel, hpre, hpc, eq_comm]

theorem Known.deliver (hknown : Known h s) {q : ℕ} (e : Event PendSignals Label)
    (hlabel : e.label = .deliver q) (hstep : next s (.deliver q) = some s') :
    Known (h ++ [e]) s' := by
  obtain ⟨⟨d, process⟩, hdeliver, rfl⟩ := Option.map_eq_some_iff.mp hstep
  obtain ⟨-, -, hmask, -, hpending, ⟨f, -⟩ | ⟨-, hmask', -⟩⟩ := deliver_cases hdeliver
  · exact f.elim
  have hwaiting : ∀ r, Waiting r (h ++ [e]) ↔ Waiting r h := fun r => by
    simp [waiting_snoc, Raises, Discards, hlabel]
  refine ⟨fun hpc r => ?_, fun hpc => ?_, fun hpc r hr => ?_⟩
  · rw [hwaiting]
    exact hknown.none hpc r
  · simp only [hmask']
    exact hknown.blocked hpc
  · have hne : r ≠ q := by
      rintro rfl
      exact hmask (hknown.blocked hpc hr)
    rw [hwaiting, ← hknown.pending hpc r hr]
    simp [hpending, hne]

variable {entry : Signals ℕ Empty}

theorem known_of_run (hrun : (program entry).Run h s) : Known h s := by
  refine hrun.ledger (J := Known) ?_ ?_
  · rintro s rfl
    refine ⟨fun _ q hq => ?_, fun hpc => absurd rfl hpc, fun hpc => absurd rfl hpc⟩
    obtain ⟨h₁, e, h₂, heq, -⟩ := hq
    simp at heq
  · rintro h s l s' - hstep hknown
    cases l with
    | main =>
      obtain ⟨-, rfl⟩ := next_main hstep
      exact hknown.main _ rfl rfl
    | send q =>
      simp only [program, System.ofStep, next] at hstep
      split at hstep <;> cases hstep
      exact hknown.send q _ rfl rfl
    | deliver q => exact hknown.deliver _ rfl hstep

end Known

/-! ## The next line -/

/-- Statements left until the next `sleep`. -/
def rank (s : PendSignals) : ℕ :=
  match s.pc with
  | .sigprocmask => 100
  | .sigpending => 99
  | .test => 3 * (33 - s.nIndex) + 2
  | .digit => 3 * (33 - s.nIndex) + 1
  | .gap => 3 * (33 - s.nIndex)
  | .newline => 1
  | .sleep => 0

theorem rank_stepMain {s : PendSignals} (hcounts : Counts s) (hpc : s.pc ≠ .sleep) :
    s.stepMain.rank < s.rank := by
  obtain ⟨-, hlt, -⟩ := hcounts
  obtain ⟨pc, process, sigPending, nIndex, nBlockTemp, stdout⟩ := s
  cases pc with
  | sigprocmask | sigpending | digit | newline => simp [stepMain, rank]
  | test => by_cases hn : nIndex < 33 <;> simp [stepMain, rank, hn]
  | gap =>
    have hn : nIndex < 33 := hlt (.inr rfl)
    simp only [stepMain, rank]
    omega
  | sleep => exact absurd rfl hpc

section Main

variable {entry : Signals ℕ Empty} {h : List (Event PendSignals Label)} {s : PendSignals}

/-- A signal is delivered while it is not blocked. -/
theorem not_blocked_of_deliver (hrun : (program entry).Run h s) {e : Event PendSignals Label}
    (he : e ∈ h) {q : ℕ} (hq : q ∈ shielded) (hlabel : e.label = .deliver q) :
    e.pre.pc = .sigprocmask := by
  obtain ⟨h₀, -, hpre, hstep⟩ := hrun.of_mem he
  rw [hlabel] at hstep
  obtain ⟨⟨d, process⟩, hdeliver, -⟩ := Option.map_eq_some_iff.mp hstep
  by_contra hpc
  exact (deliver_cases hdeliver).2.2.1 ((known_of_run hpre).blocked hpc hq)

/-- A call of `sigpending` returns those of the blocked signals that are waiting. -/
theorem mem_sigpending (hrun : (program entry).Run h s) (hpc : s.pc ≠ .sigprocmask) {q : ℕ}
    (hq : q ∈ shielded) : q ∈ s.process.sigpending ↔ Waiting q h := by
  have hknown := known_of_run hrun
  rw [sigpending, Finset.mem_inter, hknown.pending hpc q hq]
  exact and_iff_left (hknown.blocked hpc hq)

/-- What is not discarded waits once it has been raised. -/
theorem waiting_iff {q : ℕ} (hq : q ∈ shielded) (hne : q ≠ sigtstp) :
    Waiting q h ↔ ∃ e ∈ h, Raises q e := by
  have hjob : ∀ q ∈ shielded, q ≠ sigtstp → q ∉ stopSignals ∧ q ≠ sigcont := by decide
  obtain ⟨hstop, hcont⟩ := hjob q hq hne
  constructor
  · rintro ⟨h₁, e, h₂, rfl, hraises, -⟩
    exact ⟨e, by simp, hraises⟩
  · rintro ⟨e, he, hraises⟩
    obtain ⟨h₁, h₂, rfl⟩ := List.mem_iff_append.mp he
    exact ⟨h₁, e, h₂, by simp, hraises, fun e' _ => not_discards hstop hcont e'⟩

end Main

/-- **The program prints what was sent.**  In every run, whatever is sent by whomever and
whenever: none of the four signals is delivered once they are blocked; the output is a line for
each call of `sigpending`, the last one perhaps not finished; in the line of a call the digit of
one of the four is `1` if and only if the signal has been raised before the call and not been
discarded since, which for all but `SIGTSTP` means that it has been raised.  From every state of a
run the statements of the program lead to the next `sleep`. -/
theorem pending_shown (entry : Signals ℕ Empty) (h : List (Event PendSignals Label))
    (s : PendSignals) (hrun : (program entry).Run h s) :
    (∀ e ∈ h, ∀ q ∈ shielded, e.label = .deliver q → e.pre.pc = .sigprocmask) ∧
    s.stdout ++ s.left = ((calls h).map line).flatten ∧
    (∀ pre e post, h = pre ++ [e] ++ post → e.label = .main → e.pre.pc = .sigpending →
      ∀ q ∈ shielded,
        ((line e.pre.process.sigpending)[column q]? = some '1' ↔ Waiting q pre) ∧
        (q ≠ sigtstp → (Waiting q pre ↔ ∃ e' ∈ pre, Raises q e'))) ∧
    (program entry).Completes (fun e => e.label = .main ∧ e.pre.pc ≠ .sleep)
      (fun _ s' => s'.process.Running → s'.pc = .sleep) s := by
  refine ⟨fun e he q hq hlabel => not_blocked_of_deliver hrun he hq hlabel, stdout_of_run hrun,
    fun pre e post hh _ hpc q hq => ⟨?_, waiting_iff hq⟩, ?_⟩
  · subst hh
    have hpre : (program entry).Run pre e.pre :=
      hrun.after (J := fun _ _ => (program entry).Run pre e.pre) (fun _ hr => hr.of_snoc.1)
        fun _ _ _ _ _ _ hr => hr
    have hrange : ∀ q ∈ shielded, 1 ≤ q ∧ q ≤ 32 := by decide
    rw [line_column (hrange q hq).1 (hrange q hq).2]
    exact mem_sigpending hpre (by simp [hpc]) hq
  · refine System.completes_of_rank rank (I := Counts) (fun s l s' hstep _ hI => hI.step hstep)
      (fun s l s' hstep hQ hI => ?_) (fun h' s' _ _ hstuck hrunning => ?_) (counts_of_run hrun)
    · obtain ⟨rfl, hpc⟩ := hQ
      obtain ⟨-, rfl⟩ := next_main hstep
      exact rank_stepMain hI hpc
    · by_contra hpc
      exact hstuck .main s'.stepMain (if_pos hrunning) ⟨rfl, hpc⟩

/-- No signal is blocked, pending or ignored. -/
def plainEntry : Signals ℕ Empty := ⟨∅, ∅, fun _ => ⟨.dfl, ∅, false⟩, []⟩

/-- `SIGINT` and `SIGTSTP` are sent before the first line is printed. -/
theorem pending_shown_two : ∃ h s, (program plainEntry).Run h s ∧
    s.stdout = "01000000  00000000  00010000  00000000  \n".toList ∧
    s.stdout ++ s.left = ((calls h).map line).flatten := by
  obtain ⟨h, s, hrun, htest⟩ := System.exists_run_of_exec (start plainEntry) next
    ([.main, .send sigint, .send sigtstp] ++ List.replicate 99 .main)
    (fun _ s => decide (s.stdout = "01000000  00000000  00010000  00000000  \n".toList))
    (by decide +kernel)
  exact ⟨h, s, hrun, of_decide_eq_true htest, (pending_shown plainEntry h s hrun).2.1⟩

end PendSignals

end LinuxExercise
