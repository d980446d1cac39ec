import LinuxExercise.Framework.CString
import LinuxExercise.Framework.Pipe
import LinuxExercise.Framework.Termination

/-!
# A father and a son with a pipe (`005_process_IPC/01pipe.c`, `01pipe_nonblock.c`)

The father writes a string with its terminator to the pipe and waits for its son; the son reads
once, at most 1024 bytes, and writes what it has read to the terminal.  In the second program
the son reads without blocking and goes round a loop while the pipe is empty.  The two programs
are `pipeMain` and `pipeNonblockMain`.

In every interleaving the son gets the whole string in its one read, the father is not killed by
`SIGPIPE`, because the son keeps its end open until it has read, and both come to their end
(`pipe_delivers`).

Neither program installs a signal handler, so that a `read` fails with `EAGAIN` or not at all.
What the `printf`s leave in the buffers of `stdout` is left out, and so are the exits after a
failed `pipe` or `fork`.
-/

namespace LinuxExercise.Processes

namespace PipePair

/-- Where the father is, after `fork`. -/
inductive FatherPc
  /-- `close(fd[0])` -/
  | closeRead
  /-- `sleep(2)` -/
  | sleep
  /-- `write(fd[1],buffer,strlen(buffer)+1)` -/
  | write
  /-- `close(fd[1])` -/
  | closeWrite
  /-- `wait(NULL)` -/
  | wait
  | returned
  /-- Killed by `SIGPIPE`. -/
  | killed
  deriving DecidableEq, Repr

/-- Where the son is, after `fork`. -/
inductive SonPc
  /-- `close(fd[1])` -/
  | closeWrite
  /-- `bzero(buffer,sizeof(buffer))`, and the `fcntl` calls that set `O_NONBLOCK`. -/
  | bzero
  /-- `read(fd[0],buffer,sizeof(buffer))` -/
  | read
  /-- `write(STDOUT_FILENO,"try again!\n",...)`, after `EAGAIN`. -/
  | tryAgain
  /-- `close(fd[0])` -/
  | closeRead
  /-- `sprintf` and `write(STDOUT_FILENO,dealReadData,...)` -/
  | output
  | exited
  deriving DecidableEq, Repr

/-- `sizeof(buffer)` -/
def bufferSize : ℕ := 1024

/-- `"try again!\n"`, without the terminator. -/
def tryAgainText : List UInt8 := "try again!\n".toList.map fun c => UInt8.ofNat c.toNat

/-- `"Child Read Datas:"` -/
def childReadText : List UInt8 := "Child Read Datas:".toList.map fun c => UInt8.ofNat c.toNat

/-- What `write(STDOUT_FILENO,dealReadData,strlen(dealReadData)+1)` writes after
`sprintf(dealReadData,"Child Read Datas:%s\n",buffer)`. -/
def dealReadData (text : List UInt8) : List UInt8 := childReadText ++ text ++ [10, 0]

end PipePair

open PipePair in
/-- The two processes and the pipe. -/
structure PipePair where
  pipe : Pipe
  father : FatherPc
  son : SonPc
  /-- The son's `buffer`. -/
  buffer : List UInt8
  /-- What the son's calls of `write` have put on the terminal. -/
  stdout : List (List UInt8)
  deriving DecidableEq, Repr

namespace PipePair

inductive Label
  | father
  | son
  deriving DecidableEq, Repr

/-- A statement of the father, whose `buffer` holds the string `msg`. -/
def stepFather (msg : List UInt8) (s : PipePair) : Option PipePair :=
  match s.father with
  | .closeRead => some { s with father := .sleep, pipe := s.pipe.closeRead }
  | .sleep => some { s with father := .write }
  | .write =>
    match s.pipe.write (msg ++ [0]) with
    | .done pipe => some { s with father := .closeWrite, pipe := pipe }
    | .full => none
    | .sigpipe => some { s with father := .killed, pipe := s.pipe.closeWrite }
  | .closeWrite => some { s with father := .wait, pipe := s.pipe.closeWrite }
  | .wait => if s.son = .exited then some { s with father := .returned } else none
  | .returned | .killed => none

/-- A statement of the son.  A string that runs past the end of `buffer` has no step. -/
def stepSon (nonblock : Bool) (s : PipePair) : Option PipePair :=
  match s.son with
  | .closeWrite => some { s with son := .bzero, pipe := s.pipe.closeWrite }
  | .bzero => some { s with son := .read, buffer := List.replicate bufferSize 0 }
  | .read =>
    match s.pipe.read bufferSize with
    | .data bytes pipe =>
      some { s with
        son := .closeRead, pipe := pipe, buffer := bytes ++ s.buffer.drop bytes.length }
    | .eof => some { s with son := .closeRead }
    | .empty => if nonblock then some { s with son := .tryAgain } else none
  | .tryAgain => some { s with son := .read, stdout := s.stdout ++ [tryAgainText] }
  | .closeRead => some { s with son := .output, pipe := s.pipe.closeRead }
  | .output =>
    (cstring s.buffer).map fun text =>
      { s with son := .exited, stdout := s.stdout ++ [dealReadData text] }
  | .exited => none

def next (nonblock : Bool) (msg : List UInt8) (s : PipePair) : Label → Option PipePair
  | .father => s.stepFather msg
  | .son => s.stepSon nonblock

/-- After `fork` both processes have both ends open and the same content of `buffer`. -/
def start (msg : List UInt8) : PipePair where
  pipe := ⟨[], 2, 2⟩
  father := .closeRead
  son := .closeWrite
  buffer := msg ++ List.replicate (bufferSize - msg.length) 0
  stdout := []

def program (nonblock : Bool) (msg : List UInt8) : System PipePair Label :=
  .ofStep (start msg) (next nonblock msg)

/-- `01pipe.c` -/
def pipeMain (msg : List UInt8) : System PipePair Label := program false msg

/-- `01pipe_nonblock.c` -/
def pipeNonblockMain (msg : List UInt8) : System PipePair Label := program true msg

/-- The string initialises `buffer` and leaves room for its terminator. -/
structure Text (msg : List UInt8) : Prop where
  no_zero : 0 ∉ msg
  length_lt : msg.length < bufferSize

/-! ## The invariant -/

/-- The father has `fd[0]` open. -/
def FatherPc.canRead : FatherPc → Bool
  | .closeRead => true
  | _ => false

/-- The father has `fd[1]` open. -/
def FatherPc.canWrite : FatherPc → Bool
  | .closeRead | .sleep | .write | .closeWrite => true
  | _ => false

/-- The father has written. -/
def FatherPc.hasWritten : FatherPc → Bool
  | .closeWrite | .wait | .returned => true
  | _ => false

/-- The son has `fd[0]` open. -/
def SonPc.canRead : SonPc → Bool
  | .output | .exited => false
  | _ => true

/-- The son has read. -/
def SonPc.hasRead : SonPc → Bool
  | .closeRead | .output | .exited => true
  | _ => false

/-- What holds in every state. -/
structure Inv (nonblock : Bool) (msg : List UInt8) (s : PipePair) : Prop where
  readers : s.pipe.readers = s.father.canRead.toNat + s.son.canRead.toNat
  writers : s.pipe.writers = s.father.canWrite.toNat + (decide (s.son = .closeWrite)).toNat
  alive : s.father ≠ .killed
  /-- The son reads after the father has written. -/
  order : s.son.hasRead = true → s.father.hasWritten = true
  /-- The string is in the pipe from the father's write to the son's read. -/
  data : s.pipe.data = if s.father.hasWritten && !s.son.hasRead then msg ++ [0] else []
  zeros : s.son = .read ∨ s.son = .tryAgain → s.buffer = List.replicate bufferSize 0
  buffer : s.son.hasRead = true →
    s.buffer = (msg ++ [0]) ++ List.replicate (bufferSize - (msg.length + 1)) 0
  stdout : ∃ k, s.stdout = List.replicate k tryAgainText ++
    (if s.son = .exited then [dealReadData msg] else []) ∧ (nonblock = false → k = 0)
  blocking : nonblock = false → s.son ≠ .tryAgain

theorem inv_start (nonblock : Bool) (msg : List UInt8) : Inv nonblock msg (start msg) := by
  constructor <;> simp [start, FatherPc.canRead, FatherPc.canWrite, FatherPc.hasWritten,
    SonPc.canRead, SonPc.hasRead]

section Inv

variable {nonblock : Bool} {msg : List UInt8} {s s' : PipePair}

/-- The string that the son finds in its buffer. -/
theorem Inv.cstring_buffer (hinv : Inv nonblock msg s) (hmsg : Text msg)
    (hread : s.son.hasRead = true) : cstring s.buffer = some msg := by
  rw [hinv.buffer hread, cstring_append_of_mem (by simp), takeWhile_of_notMem hmsg.no_zero]
  simp

/-- The father's write finds the son's end of the pipe open and the pipe empty. -/
theorem Inv.write_eq (hinv : Inv nonblock msg s) (hmsg : Text msg) (hpc : s.father = .write) :
    s.son.hasRead = false ∧
      s.pipe.write (msg ++ [0]) = .done { s.pipe with data := msg ++ [0] } := by
  have hread : s.son.hasRead = false := by
    by_contra hne
    have hwritten := hinv.order (by simpa using hne)
    simp [hpc, FatherPc.hasWritten] at hwritten
  have hopen : s.son.canRead = true := by
    revert hread
    cases s.son <;> simp [SonPc.hasRead, SonPc.canRead]
  have hempty : s.pipe.data = [] := by
    rw [hinv.data, hpc]
    rfl
  have hlt := hmsg.length_lt
  refine ⟨hread, ?_⟩
  rw [Pipe.write_of_room]
  · rw [hempty, List.nil_append]
  · rw [hinv.readers, hopen]
    exact Nat.succ_pos _
  · simp only [hempty, List.length_nil, List.length_append, List.length_singleton, Pipe.capacity]
    unfold bufferSize at hlt
    omega

theorem Inv.father (hinv : Inv nonblock msg s) (hmsg : Text msg)
    (hstep : s.stepFather msg = some s') : Inv nonblock msg s' := by
  obtain ⟨hreaders, hwriters, halive, horder, hdata, hzeros, hbuffer, hstdout, hblock⟩ := id hinv
  cases hpc : s.father with
  | closeRead | sleep | closeWrite =>
    simp only [stepFather, hpc] at hstep
    cases hstep
    refine ⟨?_, ?_, by simp, ?_, ?_, hzeros, hbuffer, hstdout, hblock⟩ <;>
      simp_all [FatherPc.canRead, FatherPc.canWrite, FatherPc.hasWritten, Pipe.closeRead,
        Pipe.closeWrite]
  | write =>
    obtain ⟨hread, hwrite⟩ := hinv.write_eq hmsg hpc
    simp only [stepFather, hpc, hwrite] at hstep
    cases hstep
    refine ⟨?_, ?_, by simp, ?_, ?_, hzeros, hbuffer, hstdout, hblock⟩ <;>
      simp_all [FatherPc.canRead, FatherPc.canWrite, FatherPc.hasWritten]
  | wait =>
    simp only [stepFather, hpc] at hstep
    split at hstep
    · cases hstep
      refine ⟨?_, ?_, by simp, ?_, ?_, hzeros, hbuffer, hstdout, hblock⟩ <;>
        simp_all [FatherPc.canRead, FatherPc.canWrite, FatherPc.hasWritten]
    · cases hstep
  | returned | killed => simp [stepFather, hpc] at hstep

/-- The son's read gets the string, or there is nothing to read yet. -/
theorem Inv.read_eq (hinv : Inv nonblock msg s) (hmsg : Text msg) (hpc : s.son = .read) :
    (s.father.hasWritten = true ∧
      s.pipe.read bufferSize = .data (msg ++ [0]) { s.pipe with data := [] }) ∨
    (s.father.hasWritten = false ∧ s.pipe.read bufferSize = .empty) := by
  have hlt := hmsg.length_lt
  cases hwritten : s.father.hasWritten with
  | true =>
    have hdata : s.pipe.data = msg ++ [0] := by
      rw [hinv.data, hwritten, hpc]
      rfl
    refine .inl ⟨rfl, ?_⟩
    rw [Pipe.read_all (by simp [hdata]) (by simpa [hdata] using hlt), hdata]
  | false =>
    have hdata : s.pipe.data = [] := by
      rw [hinv.data, hwritten]
      rfl
    refine .inr ⟨rfl, Pipe.read_of_empty hdata ?_⟩
    -- A father that has not written has not closed the writing end.
    have halive := hinv.alive
    rw [hinv.writers]
    revert hwritten halive
    cases s.father <;> simp [FatherPc.hasWritten, FatherPc.canWrite]

theorem Inv.son (hinv : Inv nonblock msg s) (hmsg : Text msg)
    (hstep : s.stepSon nonblock = some s') : Inv nonblock msg s' := by
  obtain ⟨hreaders, hwriters, halive, horder, hdata, hzeros, hbuffer, ⟨k, hstdout, hk⟩, hblock⟩ :=
    id hinv
  have hlt := hmsg.length_lt
  cases hpc : s.son with
  | closeWrite | bzero | closeRead =>
    simp only [stepSon, hpc] at hstep
    cases hstep
    refine ⟨?_, ?_, halive, ?_, ?_, ?_, ?_, ⟨k, ?_, hk⟩, by simp⟩ <;>
      simp_all [SonPc.canRead, SonPc.hasRead, Pipe.closeRead, Pipe.closeWrite]
  | read =>
    rcases hinv.read_eq hmsg hpc with ⟨hwritten, hread⟩ | ⟨hwritten, hread⟩
    · simp only [stepSon, hpc, hread] at hstep
      cases hstep
      refine ⟨?_, ?_, halive, ?_, ?_, ?_, ?_, ⟨k, ?_, hk⟩, by simp⟩ <;>
        simp_all [SonPc.canRead, SonPc.hasRead, List.drop_replicate]
    · simp only [stepSon, hpc, hread] at hstep
      split at hstep
      · cases hstep
        refine ⟨?_, ?_, halive, ?_, ?_, ?_, ?_, ⟨k, ?_, hk⟩, ?_⟩ <;>
          simp_all [SonPc.canRead, SonPc.hasRead]
      · cases hstep
  | tryAgain =>
    simp only [stepSon, hpc] at hstep
    cases hstep
    refine ⟨?_, ?_, halive, ?_, ?_, ?_, ?_, ⟨k + 1, ?_, ?_⟩, by simp⟩ <;>
      simp_all [SonPc.canRead, SonPc.hasRead, List.replicate_succ']
  | output =>
    have htext := hinv.cstring_buffer hmsg (by rw [hpc]; rfl)
    simp only [stepSon, hpc, htext, Option.map_some] at hstep
    cases hstep
    refine ⟨?_, ?_, halive, ?_, ?_, ?_, ?_, ⟨k, ?_, hk⟩, by simp⟩ <;>
      simp_all [SonPc.canRead, SonPc.hasRead]
  | exited => simp [stepSon, hpc] at hstep

theorem Inv.step {l : Label} (hinv : Inv nonblock msg s) (hmsg : Text msg)
    (hstep : next nonblock msg s l = some s') : Inv nonblock msg s' := by
  cases l with
  | father => exact hinv.father hmsg hstep
  | son => exact hinv.son hmsg hstep

theorem inv_of_run (hmsg : Text msg) {h : List (Event PipePair Label)}
    (hrun : (program nonblock msg).Run h s) : Inv nonblock msg s := by
  refine hrun.invariant (I := Inv nonblock msg) ?_ fun s l s' _ hstep hinv => hinv.step hmsg hstep
  rintro s rfl
  exact inv_start nonblock msg

/-! ## The end of the two programs -/

/-- The step is a `read` that finds nothing, in the loop of the second program. -/
def isRetry (e : Event PipePair Label) : Bool :=
  decide (e.label = .son ∧ e.pre.son = .read ∧ e.post.son = .tryAgain)

/-- The statements that the father has left. -/
def FatherPc.rank : FatherPc → ℕ
  | .closeRead => 5
  | .sleep => 4
  | .write => 3
  | .closeWrite => 2
  | .wait => 1
  | .returned | .killed => 0

/-- The statements that the son has left, if its next read does not fail. -/
def SonPc.rank : SonPc → ℕ
  | .closeWrite => 6
  | .bzero => 5
  | .tryAgain => 4
  | .read => 3
  | .closeRead => 2
  | .output => 1
  | .exited => 0

/-- Every step but a failed read brings the two processes closer to their end. -/
theorem rank_lt {l : Label} (hstep : next nonblock msg s l = some s')
    (hretry : isRetry ⟨s, l, s'⟩ = false) :
    s'.father.rank + s'.son.rank < s.father.rank + s.son.rank := by
  cases l with
  | father =>
    simp only [next, stepFather] at hstep
    split at hstep
    case h_3 hpc =>
      split at hstep <;> cases hstep <;> simp [hpc, FatherPc.rank]
    case h_5 hpc =>
      split at hstep <;> cases hstep
      simp [hpc, FatherPc.rank]
    all_goals cases hstep
    all_goals simp [*, FatherPc.rank]
  | son =>
    simp only [next, stepSon] at hstep
    split at hstep
    case h_3 hpc =>
      split at hstep
      · cases hstep
        simp [hpc, SonPc.rank]
      · cases hstep
        simp [hpc, SonPc.rank]
      · split at hstep
        · cases hstep
          simp [isRetry, hpc] at hretry
        · cases hstep
    case h_6 hpc =>
      obtain ⟨text, -, rfl⟩ := Option.map_eq_some_iff.mp hstep
      simp [hpc, SonPc.rank]
    all_goals cases hstep
    all_goals simp [*, SonPc.rank]

/-- A father that has not returned can go on, unless it waits for its son. -/
theorem Inv.father_goes_on (hinv : Inv nonblock msg s) (hmsg : Text msg)
    (hreturned : s.father ≠ .returned) (hwait : s.father = .wait → s.son = .exited) :
    ∃ s', s.stepFather msg = some s' := by
  refine Option.isSome_iff_exists.mp ?_
  cases hpc : s.father with
  | write =>
    obtain ⟨-, hwrite⟩ := hinv.write_eq hmsg hpc
    simp [stepFather, hpc, hwrite]
  | wait => simp [stepFather, hpc, hwait hpc]
  | returned => exact absurd hpc hreturned
  | killed => exact absurd hpc hinv.alive
  | _ => simp [stepFather, hpc]

/-- A son that has not exited can go on, unless there is nothing to read. -/
theorem Inv.son_goes_on (hinv : Inv nonblock msg s) (hmsg : Text msg)
    (hexited : s.son ≠ .exited) (hread : s.son = .read → s.father.hasWritten = true) :
    ∃ s', s.stepSon nonblock = some s' ∧ isRetry ⟨s, .son, s'⟩ = false := by
  suffices hgo : (s.stepSon nonblock).any fun s' => !isRetry ⟨s, .son, s'⟩ by
    cases hs : s.stepSon nonblock with
    | none => simp [hs] at hgo
    | some s' => exact ⟨s', rfl, by simpa [hs] using hgo⟩
  cases hpc : s.son with
  | read =>
    rcases hinv.read_eq hmsg hpc with ⟨-, hdata⟩ | ⟨hwritten, -⟩
    · simp [stepSon, hpc, hdata, isRetry]
    · rw [hread hpc] at hwritten
      cases hwritten
  | output =>
    have htext := hinv.cstring_buffer hmsg (by rw [hpc]; rfl)
    simp [stepSon, hpc, htext, isRetry]
  | exited => exact absurd hpc hexited
  | _ => simp [stepSon, hpc, isRetry]

/-- Where no step but a failed read is left both processes are at their end. -/
theorem Inv.ended (hinv : Inv nonblock msg s) (hmsg : Text msg)
    (hstuck : (program nonblock msg).Stuck (isRetry · = false) s) :
    s.father = .returned ∧ s.son = .exited := by
  have hfather : ¬ ∃ s', s.stepFather msg = some s' := fun ⟨s', hs⟩ =>
    hstuck .father s' hs (by simp [isRetry])
  have hson : ¬ ∃ s', s.stepSon nonblock = some s' ∧ isRetry ⟨s, .son, s'⟩ = false :=
    fun ⟨s', hs, hretry⟩ => hstuck .son s' hs hretry
  have hwritten : s.father.hasWritten = true := by
    by_contra hne
    apply hfather
    refine hinv.father_goes_on hmsg (fun hpc => ?_) fun hpc => ?_ <;>
      simp [hpc, FatherPc.hasWritten] at hne
  have hexited : s.son = .exited := by
    by_contra hne
    exact hson (hinv.son_goes_on hmsg hne fun _ => hwritten)
  refine ⟨?_, hexited⟩
  by_contra hne
  exact hfather (hinv.father_goes_on hmsg hne fun _ => hexited)

end Inv

/-- **The string arrives.**  In every run of either program the father is not killed by `SIGPIPE`,
the son's buffer holds the father's string once it has read, and the son puts on the terminal
`try again!` some times, and never if it blocks, and then the string.  From every state the steps
other than failed reads lead to the end of both processes, whatever their order. -/
theorem pipe_delivers (nonblock : Bool) (msg : List UInt8) (hmsg : Text msg)
    (h : List (Event PipePair Label)) (s : PipePair) (hrun : (program nonblock msg).Run h s) :
    s.father ≠ .killed ∧
    (s.son.hasRead = true → cstring s.buffer = some msg) ∧
    (∃ k, s.stdout = List.replicate k tryAgainText ++
      (if s.son = .exited then [dealReadData msg] else []) ∧ (nonblock = false → k = 0)) ∧
    (program nonblock msg).Completes (isRetry · = false)
      (fun _ s' => s'.father = .returned ∧ s'.son = .exited) s := by
  have hinv := inv_of_run hmsg hrun
  refine ⟨hinv.alive, hinv.cstring_buffer hmsg, hinv.stdout, ?_⟩
  exact System.completes_of_rank (fun s => s.father.rank + s.son.rank)
    (I := Inv nonblock msg)
    (fun s l s' hstep _ hinv => hinv.step hmsg hstep)
    (fun s l s' hstep hretry _ => rank_lt hstep hretry)
    (fun h' s' _ hinv hstuck => hinv.ended hmsg hstuck) hinv

/-- The string `hi`, for which the son asks twice. -/
theorem pipe_delivers_hi : ∃ h s, (pipeNonblockMain [104, 105]).Run h s ∧
    s.stdout = [tryAgainText, tryAgainText, dealReadData [104, 105]] ∧
    cstring s.buffer = some [104, 105] := by
  obtain ⟨h, s, hrun, htest⟩ := System.exists_run_of_exec (start [104, 105]) (next true [104, 105])
    ([.son, .son, .son, .son, .son, .son, .father, .father, .father] ++ List.replicate 3 .son)
    (fun _ s => decide (s.stdout = [tryAgainText, tryAgainText, dealReadData [104, 105]]) &&
      decide (s.son = .exited)) (by decide +kernel)
  simp only [Bool.and_eq_true, decide_eq_true_eq] at htest
  obtain ⟨hout, hson⟩ := htest
  exact ⟨h, s, hrun, hout,
    (pipe_delivers true [104, 105] ⟨by decide, by decide⟩ h s hrun).2.1 (by rw [hson]; rfl)⟩

end PipePair

end LinuxExercise.Processes
