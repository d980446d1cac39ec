import LinuxExercise.Servers.Kernel

/-!
# The line client (`012_network_IO/01select/client.c`)

The client sends the lines of its standard input one by one, waits for one `read` of the
connection after each of them and writes what this `read` returned to its standard output.
Nothing ties the bytes of that `read` to the line before it: the reply may arrive in pieces, and
what is left of it is read after the next line has been sent.

A step is one call; what the calls return that the client does not determine is in the label.
-/

namespace LinuxExercise.Servers

/-- What `fgets` takes from its input, with room for `size` bytes: up to the end of the line and
no more. -/
def lineOf : ℕ → List UInt8 → List UInt8
  | 0, _ => []
  | _, [] => []
  | size + 1, c :: cs => if c = 10 then [c] else c :: lineOf size cs

/-- `buf` after a `read` into it; what lies behind the bytes read stays. -/
def ReadResult.store (buf : List UInt8) : ReadResult → List UInt8
  | .data bytes => bytes ++ buf.drop bytes.length
  | _ => buf

/-- `strlen`. -/
def strlen (buf : List UInt8) : ℕ := (buf.takeWhile (· ≠ 0)).length

theorem lineOf_isPrefix (size : ℕ) (input : List UInt8) : lineOf size input <+: input := by
  induction size generalizing input with
  | zero => exact List.nil_prefix
  | succ size ih =>
    cases input with
    | nil => exact List.prefix_rfl
    | cons c cs =>
      unfold lineOf
      split
      · exact (List.prefix_cons_inj c).2 List.nil_prefix
      · exact (List.prefix_cons_inj c).2 (ih cs)

theorem lineOf_ne_nil (size : ℕ) {input : List UInt8} (hinput : input ≠ []) :
    lineOf (size + 1) input ≠ [] := by
  cases input with
  | nil => exact absurd rfl hinput
  | cons c cs =>
    unfold lineOf
    split <;> exact nofun

/-- A string in a buffer is what precedes its terminator. -/
theorem take_strlen {line rest : List UInt8} (hline : 0 ∉ line) :
    (line ++ 0 :: rest).take (strlen (line ++ 0 :: rest)) = line := by
  have hall : ∀ c ∈ line, decide (c ≠ 0) = true := fun c hc =>
    decide_eq_true fun heq => hline (heq ▸ hc)
  have hlen : strlen (line ++ 0 :: rest) = line.length := by
    rw [strlen, List.takeWhile_append_of_pos hall]
    simp
  rw [hlen, List.take_left]

namespace LineClient

/-- Where the client is. -/
inductive Pc
  /-- Line 20. -/
  | fgets
  /-- Line 21. -/
  | write
  /-- Line 22. -/
  | read
  /-- Line 29. -/
  | print
  /-- The connection is closed and `main` has returned. -/
  | returned (status : ℤ)
  deriving DecidableEq

/-- The call that the client makes, with what `read` returns. -/
inductive Label
  | fgets
  | write
  | read (r : ReadResult)
  | print
  deriving DecidableEq

end LineClient

/-- The variables of the client's `main`, and its standard streams. -/
structure LineClient where
  pc : LineClient.Pc
  buf : List UInt8
  n : ℤ
  /-- What is left of the standard input. -/
  stdin : List UInt8
  stdout : List UInt8
  /-- History: the lines sent to the server. -/
  sent : List UInt8

namespace LineClient

/-- The client at line 20, with `input` to send. -/
def start (input : List UInt8) : LineClient :=
  ⟨.fgets, List.replicate maxLine 0, 0, input, [], []⟩

/-- The text of line 24. -/
def notice : List UInt8 :=
  "the other side has been closed:\n".toList.map fun c => UInt8.ofNat c.toNat

/-- Line 20, and lines 32-33 at the end of the input. -/
def fgets (c : LineClient) : LineClient :=
  if c.stdin = [] then { c with pc := .returned 0 }
  else
    let line := lineOf (maxLine - 1) c.stdin
    { c with
        pc := .write
        buf := line ++ 0 :: c.buf.drop (line.length + 1)
        stdin := c.stdin.drop line.length }

/-- What line 21 writes to the connection. -/
def request (c : LineClient) : List UInt8 := c.buf.take (strlen c.buf)

/-- Line 21. -/
def write (c : LineClient) : LineClient :=
  { c with pc := .read, sent := c.sent ++ c.request }

/-- Line 22, and lines 24-26 when the connection has been closed. -/
def read (r : ReadResult) (c : LineClient) : LineClient :=
  if r.n = 0 then { c with pc := .returned 1, n := r.n, stdout := c.stdout ++ notice }
  else { c with pc := .print, n := r.n, buf := r.store c.buf }

/-- What line 29 writes to the standard output. -/
def reply (c : LineClient) : List UInt8 := c.buf.take (sizeT c.n)

/-- Line 29. -/
def print (c : LineClient) : LineClient :=
  { c with pc := .fgets, stdout := c.stdout ++ c.reply }

/-- One call of the client. -/
def step (c : LineClient) : Label → Option LineClient
  | .fgets => if c.pc = .fgets then some c.fgets else none
  | .write => if c.pc = .write then some c.write else none
  | .read r => if c.pc = .read then some (c.read r) else none
  | .print => if c.pc = .print then some c.print else none

/-- What has been taken from the standard input and not yet been sent. -/
def unsent (c : LineClient) : List UInt8 := if c.pc = .write then c.request else []

/-- What has been read from the connection and not yet been written to the standard output. -/
def unprinted (c : LineClient) : List UInt8 := if c.pc = .print then c.reply else []

/-- `fgets` leaves a string that is the next line. -/
theorem fgets_request {c : LineClient} (hstdin : 0 ∉ c.stdin) (hmore : c.stdin ≠ []) :
    c.fgets.request = lineOf (maxLine - 1) c.stdin := by
  have hline : 0 ∉ lineOf (maxLine - 1) c.stdin := fun hmem =>
    hstdin ((lineOf_isPrefix _ _).subset hmem)
  rw [fgets, if_neg hmore]
  exact take_strlen hline

/-- What a `read` returned is printed as it is. -/
theorem read_reply {bytes : List UInt8} (hvalid : (ReadResult.data bytes).Valid)
    (c : LineClient) : (c.read (.data bytes)).pc = .print ∧
      (c.read (.data bytes)).reply = bytes := by
  rw [read, if_neg (data_n_ne_zero hvalid)]
  refine ⟨rfl, ?_⟩
  show (bytes ++ c.buf.drop bytes.length).take (sizeT bytes.length) = bytes
  rw [sizeT_length hvalid, List.take_left]

/-- Nothing of the input is lost: it has been sent, is about to be sent or is yet to be read. -/
def Input (input : List UInt8) (c : LineClient) : Prop := c.sent ++ c.unsent ++ c.stdin = input

theorem start_input (input : List UInt8) : (start input).Input input := rfl

/-- The inversion of `step`. -/
inductive Stepped (c : LineClient) : Label → LineClient → Prop
  | fgets : c.pc = .fgets → Stepped c .fgets c.fgets
  | write : c.pc = .write → Stepped c .write c.write
  | read (r : ReadResult) : c.pc = .read → Stepped c (.read r) (c.read r)
  | print : c.pc = .print → Stepped c .print c.print

theorem stepped_of_step {c c' : LineClient} {l : Label} (h : c.step l = some c') :
    Stepped c l c' := by
  cases l with
  | fgets =>
    obtain ⟨hpc, hc⟩ := Option.ite_none_right_eq_some.mp h
    exact Option.some.inj hc ▸ .fgets hpc
  | write =>
    obtain ⟨hpc, hc⟩ := Option.ite_none_right_eq_some.mp h
    exact Option.some.inj hc ▸ .write hpc
  | read r =>
    obtain ⟨hpc, hc⟩ := Option.ite_none_right_eq_some.mp h
    exact Option.some.inj hc ▸ .read r hpc
  | print =>
    obtain ⟨hpc, hc⟩ := Option.ite_none_right_eq_some.mp h
    exact Option.some.inj hc ▸ .print hpc

theorem Input.step {input : List UInt8} (hnul : 0 ∉ input) {c c' : LineClient} {l : Label}
    (h : c.Input input) (hstep : c.step l = some c') : c'.Input input := by
  unfold Input unsent at h ⊢
  cases stepped_of_step hstep with
  | fgets hpc =>
    rw [hpc, if_neg nofun, List.append_nil] at h
    by_cases hmore : c.stdin = []
    · rw [fgets, if_pos hmore]
      simpa using h
    · have hstdin : 0 ∉ c.stdin := fun hmem => hnul (h ▸ List.mem_append_right _ hmem)
      have hpc' : c.fgets.pc = .write := by rw [fgets, if_neg hmore]
      have hsent : c.fgets.sent = c.sent := by rw [fgets, if_neg hmore]
      have hrest : c.fgets.stdin = c.stdin.drop (lineOf (maxLine - 1) c.stdin).length := by
        rw [fgets, if_neg hmore]
      rw [if_pos hpc', hsent, hrest, fgets_request hstdin hmore, List.append_assoc,
        ← List.prefix_append_drop (lineOf_isPrefix _ c.stdin)]
      exact h
  | write hpc =>
    rw [if_pos hpc] at h
    simpa [write] using h
  | read r hpc =>
    rw [hpc, if_neg nofun] at h
    unfold read
    split <;> simpa using h
  | print hpc =>
    rw [hpc, if_neg nofun] at h
    simpa [print] using h

end LineClient

end LinuxExercise.Servers
