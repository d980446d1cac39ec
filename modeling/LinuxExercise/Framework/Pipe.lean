import Mathlib.Tactic
import Mathlib.Data.UInt

/-!
# Pipes

A pipe is a queue of bytes with a number of open descriptors at either end.  A write to a pipe
that nobody can read from raises `SIGPIPE`; a read from an empty pipe is at the end of the file
when nobody can write to it and has to wait otherwise.  A write of at most `PIPE_BUF` bytes is
done as a whole or not at all, and all writes here are such writes.
-/

namespace LinuxExercise

/-- A pipe and the descriptors open at its ends. -/
structure Pipe where
  data : List UInt8
  /-- Descriptors for the reading end, in all processes. -/
  readers : ℕ
  /-- Descriptors for the writing end, in all processes. -/
  writers : ℕ
  deriving DecidableEq, Repr

namespace Pipe

/-- The bytes a pipe has room for. -/
def capacity : ℕ := 65536

inductive WriteResult
  | done (p : Pipe)
  /-- There is no room: the writer waits. -/
  | full
  | sigpipe
  deriving DecidableEq, Repr

/-- A write of at most `PIPE_BUF` bytes. -/
def write (p : Pipe) (bytes : List UInt8) : WriteResult :=
  if p.readers = 0 then .sigpipe
  else if p.data.length + bytes.length ≤ capacity then
    .done { p with data := p.data ++ bytes }
  else .full

inductive ReadResult
  | data (bytes : List UInt8) (p : Pipe)
  | eof
  /-- There is nothing to read yet: the reader waits, or gets `EAGAIN`. -/
  | empty
  deriving DecidableEq, Repr

/-- A read of at most `n` bytes. -/
def read (p : Pipe) (n : ℕ) : ReadResult :=
  if p.data = [] then
    if p.writers = 0 then .eof else .empty
  else .data (p.data.take n) { p with data := p.data.drop n }

def closeRead (p : Pipe) : Pipe := { p with readers := p.readers - 1 }

def closeWrite (p : Pipe) : Pipe := { p with writers := p.writers - 1 }

variable {p : Pipe} {bytes : List UInt8} {n : ℕ}

theorem write_of_room (hreaders : 0 < p.readers)
    (hroom : p.data.length + bytes.length ≤ capacity) :
    p.write bytes = .done { p with data := p.data ++ bytes } := by
  rw [write, if_neg hreaders.ne', if_pos hroom]

theorem write_eq_done_iff {p' : Pipe} : p.write bytes = .done p' ↔
    (p.readers ≠ 0 ∧ p.data.length + bytes.length ≤ capacity) ∧
      { p with data := p.data ++ bytes } = p' := by
  unfold write
  split
  · simp [*]
  · split <;> simp [*]

theorem write_eq_sigpipe_iff : p.write bytes = .sigpipe ↔ p.readers = 0 := by
  unfold write
  split
  · simp [*]
  · split <;> simp [*]

theorem read_of_empty (hdata : p.data = []) (hwriters : 0 < p.writers) : p.read n = .empty := by
  rw [read, if_pos hdata, if_neg hwriters.ne']

theorem read_of_ne_nil (hdata : p.data ≠ []) :
    p.read n = .data (p.data.take n) { p with data := p.data.drop n } := by
  rw [read, if_neg hdata]

/-- A read with room for everything empties the pipe. -/
theorem read_all (hdata : p.data ≠ []) (hn : p.data.length ≤ n) :
    p.read n = .data p.data { p with data := [] } := by
  rw [read_of_ne_nil hdata, List.take_of_length_le hn, List.drop_of_length_le hn]

/-- A read is at the end of the file only when nobody can write. -/
theorem read_eq_eof_iff : p.read n = .eof ↔ p.data = [] ∧ p.writers = 0 := by
  unfold read
  split
  · split <;> simp [*]
  · simp [*]

end Pipe

end LinuxExercise
