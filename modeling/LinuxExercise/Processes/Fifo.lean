import LinuxExercise.Framework.CString
import LinuxExercise.Framework.Pipe
import LinuxExercise.Framework.Termination
import LinuxExercise.Framework.Threads

/-!
# A named pipe (`005_process_IPC/03fifo_read.c`, `03fifo_write.c`)

A reader and any number of writers open the same fifo, in any order.  `open` waits until the
other end is opened by somebody; after that each writer writes one string with its terminator
and closes, and the reader reads once, prints what it has got and closes.

With at least one writer the reader prints the string, never nothing and never part of it: it
cannot reach the end of the file, because a writer that lets it through `open` has still to
write.  A writer may be killed by `SIGPIPE`, but only after the reader has printed, and at
least one writer is not (`fifo_delivers`).

The checks of `argc` and of the results of `open` are left out.
-/

namespace LinuxExercise.Processes

namespace Fifo

/-- Where the reader is. -/
inductive ReaderPc
  /-- `open(argv[1],O_RDONLY)` -/
  | openRead
  /-- In `open`, until the number of openings for writing is no longer `openings`. -/
  | waiting (openings : ℕ)
  /-- `read(fd,buffer,sizeof(buffer))`, after `bzero` -/
  | read
  /-- `printf("read datas:%s\n",buffer)` -/
  | print
  /-- `close(fd)` -/
  | close
  | exited
  deriving DecidableEq, Repr

/-- Where a writer is. -/
inductive WriterPc
  /-- `open(argv[1],O_WRONLY)` -/
  | openWrite
  /-- In `open`, until the number of openings for reading is no longer `openings`. -/
  | waiting (openings : ℕ)
  /-- `write(fd,buffer,strlen(buffer)+1)` -/
  | write
  /-- `close(fd)` -/
  | close
  | exited
  /-- Killed by `SIGPIPE`. -/
  | killed
  deriving DecidableEq, Repr

/-- `BUF_SIZE` -/
def bufSize : ℕ := 4 * 1024

end Fifo

open Fifo in
/-- The fifo and the processes that use it. -/
structure Fifo where
  pipe : Pipe
  /-- How often the fifo has been opened for reading. -/
  readOpenings : ℕ
  /-- How often the fifo has been opened for writing. -/
  writeOpenings : ℕ
  reader : ReaderPc
  /-- The reader's `buffer`. -/
  buffer : List UInt8
  /-- What the reader prints behind `read datas:`. -/
  printed : Option (List UInt8)
  writers : List WriterPc
  deriving DecidableEq, Repr

namespace Fifo

/-- A statement of the reader.  A string that runs past the end of `buffer` has no step. -/
def stepReader (s : Fifo) : Option Fifo :=
  match s.reader with
  | .openRead =>
    some { s with
      pipe := { s.pipe with readers := s.pipe.readers + 1 }
      readOpenings := s.readOpenings + 1
      reader := if s.pipe.writers = 0 then .waiting s.writeOpenings else .read }
  | .waiting openings =>
    if s.writeOpenings = openings then none else some { s with reader := .read }
  | .read =>
    match s.pipe.read bufSize with
    | .data bytes pipe =>
      some { s with
        reader := .print, pipe := pipe
        buffer := bytes ++ (List.replicate bufSize 0).drop bytes.length }
    | .eof => some { s with reader := .print, buffer := List.replicate bufSize 0 }
    | .empty => none
  | .print =>
    (cstring s.buffer).map fun text => { s with reader := .close, printed := some text }
  | .close => some { s with reader := .exited, pipe := s.pipe.closeRead }
  | .exited => none

/-- A statement of a writer: where it is afterwards, the pipe and the number of openings. -/
def stepWriter (msg : List UInt8) (s : Fifo) : WriterPc → Option (WriterPc × Pipe × ℕ)
  | .openWrite =>
    some (if s.pipe.readers = 0 then .waiting s.readOpenings else .write,
      { s.pipe with writers := s.pipe.writers + 1 }, s.writeOpenings + 1)
  | .waiting openings =>
    if s.readOpenings = openings then none else some (.write, s.pipe, s.writeOpenings)
  | .write =>
    match s.pipe.write (msg ++ [0]) with
    | .done pipe => some (.close, pipe, s.writeOpenings)
    | .full => none
    | .sigpipe => some (.killed, s.pipe.closeWrite, s.writeOpenings)
  | .close => some (.exited, s.pipe.closeWrite, s.writeOpenings)
  | .exited | .killed => none

inductive Label
  | reader
  | writer (i : ℕ)
  deriving DecidableEq, Repr

def next (msg : List UInt8) (s : Fifo) : Label → Option Fifo
  | .reader => s.stepReader
  | .writer i =>
    match s.writers[i]? with
    | none => none
    | some w => (s.stepWriter msg w).map fun (w', pipe', openings') =>
      { s with writers := s.writers.set i w', pipe := pipe', writeOpenings := openings' }

/-- Nobody has opened the fifo yet. -/
def start (n : ℕ) : Fifo where
  pipe := ⟨[], 0, 0⟩
  readOpenings := 0
  writeOpenings := 0
  reader := .openRead
  buffer := []
  printed := none
  writers := List.replicate n .openWrite

/-- One reader and `n` writers of the string `msg`. -/
def program (msg : List UInt8) (n : ℕ) : System Fifo Label := .ofStep (start n) (next msg)

/-- The string fits into the writer's `buffer` with its terminator. -/
structure Text (msg : List UInt8) : Prop where
  no_zero : 0 ∉ msg
  length_lt : msg.length < bufSize

/-! ## The invariant -/

/-- The reader has the fifo open. -/
def ReaderPc.isOpen : ReaderPc → Bool
  | .openRead | .exited => false
  | _ => true

/-- The reader has read. -/
def ReaderPc.hasRead : ReaderPc → Bool
  | .print | .close | .exited => true
  | _ => false

/-- The writer has the fifo open. -/
def WriterPc.isOpen : WriterPc → Bool
  | .waiting _ | .write | .close => true
  | _ => false

/-- The writer has opened the fifo, or has begun to. -/
def WriterPc.hasOpened : WriterPc → Bool
  | .openWrite => false
  | _ => true

/-- The writer has written. -/
def WriterPc.hasWritten : WriterPc → Bool
  | .close | .exited => true
  | _ => false

/-- The strings that have been written, one behind the other. -/
def strings (msg : List UInt8) (k : ℕ) : List UInt8 := (List.replicate k (msg ++ [0])).flatten

/-- What is known of the reader. -/
structure ReaderInv (msg : List UInt8) (s : Fifo) : Prop where
  readers : s.pipe.readers = s.reader.isOpen.toNat
  openings : s.readOpenings = (decide (s.reader ≠ .openRead)).toNat
  /-- The reader waits in `open` for the first writer. -/
  waiting : ∀ c, s.reader = .waiting c → c = 0
  opened : s.reader = .read → 0 < s.writeOpenings
  buffer : s.reader.hasRead = true → cstring s.buffer = some msg
  read : s.reader.hasRead = true → ∃ w ∈ s.writers, w.hasWritten = true
  printed : s.printed = if s.reader = .close ∨ s.reader = .exited then some msg else none

/-- What is known of the writers. -/
structure WritersInv (msg : List UInt8) (s : Fifo) : Prop where
  writers : s.pipe.writers = s.writers.countP WriterPc.isOpen
  openings : s.writeOpenings = s.writers.countP WriterPc.hasOpened
  /-- A writer that waits in `open` waits for the reader, or comes after it. -/
  waiting : ∀ c, .waiting c ∈ s.writers → c = 0 ∨ s.reader = .exited ∧ c = s.readOpenings
  write : .write ∈ s.writers ∨ (∃ w ∈ s.writers, w.hasWritten = true) → s.reader ≠ .openRead
  killed : .killed ∈ s.writers → s.reader = .exited
  /-- Until the reader reads the pipe holds every string written. -/
  data : s.reader.hasRead = false →
    s.pipe.data = strings msg (s.writers.countP WriterPc.hasWritten)

structure Inv (msg : List UInt8) (s : Fifo) : Prop where
  reader : ReaderInv msg s
  writers : WritersInv msg s

theorem inv_start (msg : List UInt8) (n : ℕ) : Inv msg (start n) := by
  refine ⟨?_, ?_⟩ <;> constructor <;>
    simp [start, ReaderPc.isOpen, ReaderPc.hasRead, WriterPc.isOpen, WriterPc.hasOpened,
      WriterPc.hasWritten, strings, List.countP_replicate]

theorem strings_succ (msg : List UInt8) (k : ℕ) :
    strings msg (k + 1) = strings msg k ++ (msg ++ [0]) := by
  simp [strings, List.replicate_succ']

theorem strings_eq_nil_iff {msg : List UInt8} {k : ℕ} : strings msg k = [] ↔ k = 0 := by
  cases k with
  | zero => simp [strings]
  | succ k => simp [strings_succ]

/-- What a buffer that begins with a string is taken to be. -/
theorem cstring_of_read {msg : List UInt8} (hmsg : Text msg) {k : ℕ} (hk : 0 < k)
    (rest : List UInt8) : cstring ((strings msg k).take bufSize ++ rest) = some msg := by
  obtain ⟨k, rfl⟩ : ∃ j, k = j + 1 := ⟨k - 1, by omega⟩
  have hfirst : strings msg (k + 1) = (msg ++ [0]) ++ strings msg k := by
    simp [strings, List.replicate_succ]
  have hlt := hmsg.length_lt
  have htake : (strings msg (k + 1)).take bufSize =
      (msg ++ [0]) ++ (strings msg k).take (bufSize - (msg.length + 1)) := by
    rw [hfirst, List.take_append, List.take_of_length_le (by simpa using hlt)]
    simp
  rw [htake, List.append_assoc, cstring_append_of_mem (by simp), takeWhile_of_notMem hmsg.no_zero]
  simp

section Inv

variable {msg : List UInt8} {s s' : Fifo}

/-- Before the reader has read, a writer that has opened the fifo has written or will write. -/
theorem WritersInv.open_of_opened (hinv : WritersInv msg s) (hexited : s.reader ≠ .exited)
    {w : WriterPc} (hw : w ∈ s.writers) (hopened : w.hasOpened = true)
    (hwritten : w.hasWritten = false) : w.isOpen = true := by
  cases w with
  | killed => exact absurd (hinv.killed hw) hexited
  | openWrite => cases hopened
  | exited => cases hwritten
  | _ => rfl

/-- The reader does not reach the end of the file. -/
theorem Inv.not_eof (hinv : Inv msg s) (hpc : s.reader = .read) : s.pipe.read bufSize ≠ .eof := by
  intro heof
  obtain ⟨hdata, hclosed⟩ := Pipe.read_eq_eof_iff.mp heof
  have hnone : s.writers.countP WriterPc.hasWritten = 0 := by
    rw [hinv.writers.data (by rw [hpc]; rfl)] at hdata
    exact strings_eq_nil_iff.mp hdata
  have hsome := hinv.reader.opened hpc
  rw [hinv.writers.openings] at hsome
  obtain ⟨w, hw, hopened⟩ := List.countP_pos_iff.mp hsome
  have hwritten : w.hasWritten = false := by simpa using List.countP_eq_zero.mp hnone w hw
  have hopen := hinv.writers.open_of_opened (by simp [hpc]) hw hopened hwritten
  rw [hinv.writers.writers] at hclosed
  exact List.countP_eq_zero.mp hclosed w hw hopen

/-- The writers do not see the reader move, but for what it has open and whether it has read. -/
theorem WritersInv.of_reader (hinv : WritersInv msg s) (hexited : s.reader ≠ .exited)
    (hwriters : s'.writers = s.writers) (hopenings : s'.writeOpenings = s.writeOpenings)
    (hpipe : s'.pipe.writers = s.pipe.writers) (hreader : s'.reader ≠ .openRead)
    (hdata : s'.reader.hasRead = false → s'.pipe.data = s.pipe.data ∧ s.reader.hasRead = false) :
    WritersInv msg s' where
  writers := by rw [hpipe, hwriters, hinv.writers]
  openings := by rw [hopenings, hwriters, hinv.openings]
  waiting c hc := by
    rw [hwriters] at hc
    exact .inl ((hinv.waiting c hc).resolve_right fun h => hexited h.1)
  write _ := hreader
  killed hk := by
    rw [hwriters] at hk
    exact absurd (hinv.killed hk) hexited
  data hread := by
    obtain ⟨hsame, hold⟩ := hdata hread
    rw [hsame, hwriters, hinv.data hold]

theorem Inv.stepReader (hinv : Inv msg s) (hmsg : Text msg) (hstep : s.stepReader = some s') :
    Inv msg s' := by
  obtain ⟨⟨hreaders, hopenings, hwaiting, hopened, hbuffer, hread, hprinted⟩, hwriters⟩ := id hinv
  cases hpc : s.reader with
  | openRead =>
    have hall : s.writers.countP WriterPc.hasOpened = s.writers.countP WriterPc.isOpen := by
      refine List.countP_congr fun w hw => ⟨fun hop => ?_, fun hop => ?_⟩
      · refine hwriters.open_of_opened (by simp [hpc]) hw hop ?_
        by_contra hne
        exact hwriters.write (.inr ⟨w, hw, by simpa using hne⟩) hpc
      · revert hop
        cases w <;> simp [WriterPc.isOpen, WriterPc.hasOpened]
    have hopen : s.writeOpenings = s.pipe.writers := by
      rw [hwriters.openings, hwriters.writers, hall]
    simp only [Fifo.stepReader, hpc] at hstep
    split at hstep
    · next hzero =>
      cases hstep
      refine ⟨⟨?_, ?_, ?_, ?_, ?_, ?_, ?_⟩, hwriters.of_reader (by simp [hpc]) rfl rfl rfl (by simp)
        fun _ => ⟨rfl, by rw [hpc]; rfl⟩⟩
      all_goals simp_all [ReaderPc.isOpen, ReaderPc.hasRead]
    · next hsome =>
      cases hstep
      refine ⟨⟨?_, ?_, ?_, ?_, ?_, ?_, ?_⟩, hwriters.of_reader (by simp [hpc]) rfl rfl rfl (by simp)
        fun _ => ⟨rfl, by rw [hpc]; rfl⟩⟩
      all_goals simp_all [ReaderPc.isOpen, ReaderPc.hasRead]
      omega
  | waiting c =>
    obtain rfl := hwaiting c hpc
    simp only [Fifo.stepReader, hpc] at hstep
    split at hstep
    · cases hstep
    · cases hstep
      refine ⟨⟨?_, ?_, ?_, ?_, ?_, ?_, ?_⟩, hwriters.of_reader (by simp [hpc]) rfl rfl rfl (by simp)
        fun _ => ⟨rfl, by rw [hpc]; rfl⟩⟩
      all_goals simp_all [ReaderPc.isOpen, ReaderPc.hasRead]
      omega
  | read =>
    have hdata := hwriters.data (by rw [hpc]; rfl)
    simp only [Fifo.stepReader, hpc] at hstep
    by_cases hnil : s.pipe.data = []
    · -- The end of the file is out of reach, and an empty pipe makes the reader wait.
      have hopen : s.pipe.writers ≠ 0 := fun hzero =>
        hinv.not_eof hpc (Pipe.read_eq_eof_iff.mpr ⟨hnil, hzero⟩)
      rw [Pipe.read_of_empty hnil (Nat.pos_of_ne_zero hopen)] at hstep
      cases hstep
    · rw [Pipe.read_of_ne_nil hnil] at hstep
      cases hstep
      have hk : 0 < s.writers.countP WriterPc.hasWritten := by
        rw [Nat.pos_iff_ne_zero]
        intro hzero
        rw [hdata, hzero] at hnil
        exact hnil rfl
      refine ⟨⟨?_, ?_, by simp, by simp, fun _ => ?_, fun _ => List.countP_pos_iff.mp hk, ?_⟩,
        hwriters.of_reader (by simp [hpc]) rfl rfl rfl (by simp) (fun h => by cases h)⟩
      · simp_all [ReaderPc.isOpen]
      · simp_all
      · simp only [hdata]
        exact cstring_of_read hmsg hk _
      · simp_all
  | print =>
    simp only [Fifo.stepReader, hpc, hbuffer (by rw [hpc]; rfl), Option.map_some] at hstep
    cases hstep
    refine ⟨⟨?_, ?_, ?_, ?_, ?_, ?_, ?_⟩, hwriters.of_reader (by simp [hpc]) rfl rfl rfl (by simp)
      (fun h => by cases h)⟩
    all_goals simp_all [ReaderPc.isOpen, ReaderPc.hasRead]
  | close =>
    simp only [Fifo.stepReader, hpc] at hstep
    cases hstep
    refine ⟨⟨?_, ?_, ?_, ?_, ?_, ?_, ?_⟩, hwriters.of_reader (by simp [hpc]) rfl rfl rfl (by simp)
      (fun h => by cases h)⟩
    all_goals simp_all [ReaderPc.isOpen, ReaderPc.hasRead, Pipe.closeRead]
  | exited => simp [Fifo.stepReader, hpc] at hstep

/-- A writer takes a step: it has opened the fifo by then and leaves the reading end alone. -/
theorem Inv.set_writer (hinv : Inv msg s) {i : ℕ} {w w' : WriterPc} {pipe' : Pipe}
    {openings' : ℕ} (hw : s.writers[i]? = some w)
    (hreaders : pipe'.readers = s.pipe.readers)
    (hwriters : pipe'.writers + (if w.isOpen then 1 else 0) =
      s.pipe.writers + (if w'.isOpen then 1 else 0))
    (hopened : w'.hasOpened = true)
    (hopenings : openings' + (if w.hasOpened then 1 else 0) = s.writeOpenings + 1)
    (hwritten : w.hasWritten = true → w'.hasWritten = true)
    (hwaiting : ∀ c, w' = .waiting c → c = 0 ∨ s.reader = .exited ∧ c = s.readOpenings)
    (hwrite : w' = .write ∨ w'.hasWritten = true → s.reader ≠ .openRead)
    (hkilled : w' = .killed → s.reader = .exited)
    (hdata : s.reader.hasRead = false →
      pipe'.data = strings msg ((s.writers.set i w').countP WriterPc.hasWritten)) :
    Inv msg { s with
      writers := s.writers.set i w', pipe := pipe', writeOpenings := openings' } := by
  obtain ⟨hreader, hinv⟩ := hinv
  have hold : ∀ {v}, v ∈ s.writers.set i w' → v ∈ s.writers ∨ v = w' := List.mem_or_eq_of_mem_set
  have hcountOpen := countP_set_add (b := w') (p := WriterPc.isOpen) hw
  have hcountOpened := countP_set_add (b := w') (p := WriterPc.hasOpened) hw
  have hcountWritten := countP_set_add (b := w') (p := WriterPc.hasWritten) hw
  rw [hopened, if_pos rfl] at hcountOpened
  have hmore : s.writeOpenings ≤ openings' := by
    split at hopenings <;> omega
  refine ⟨⟨hreaders.trans hreader.readers, hreader.openings, hreader.waiting,
    fun hpc => (hreader.opened hpc).trans_le hmore, hreader.buffer, fun hread => ?_,
    hreader.printed⟩, ⟨?_, ?_, fun c hc => ?_, fun hv => ?_, fun hk => ?_, hdata⟩⟩
  · -- What has been written stays written.
    have hpos := List.countP_pos_iff.mpr (hreader.read hread)
    suffices hpos' : 0 < (s.writers.set i w').countP WriterPc.hasWritten from
      List.countP_pos_iff.mp hpos'
    by_cases hw' : w.hasWritten = true
    · rw [if_pos hw', if_pos (hwritten hw')] at hcountWritten
      omega
    · rw [if_neg hw'] at hcountWritten
      omega
  · have hsame := hinv.writers
    change pipe'.writers = (s.writers.set i w').countP WriterPc.isOpen
    omega
  · have hsame := hinv.openings
    change openings' = (s.writers.set i w').countP WriterPc.hasOpened
    omega
  · rcases hold hc with hc | hc
    · exact hinv.waiting c hc
    · exact hwaiting c hc.symm
  · rcases hv with hv | ⟨v, hv, hvw⟩
    · rcases hold hv with hv | hv
      · exact hinv.write (.inl hv)
      · exact hwrite (.inl hv.symm)
    · rcases hold hv with hv | rfl
      · exact hinv.write (.inr ⟨v, hv, hvw⟩)
      · exact hwrite (.inr hvw)
  · rcases hold hk with hk | hk
    · exact hinv.killed hk
    · exact hkilled hk.symm

/-- A step that writes nothing leaves the number of strings written as it is. -/
theorem WritersInv.data_set (hinv : WritersInv msg s) {i : ℕ} {w w' : WriterPc}
    (hw : s.writers[i]? = some w) (hsame : w.hasWritten = w'.hasWritten)
    (hread : s.reader.hasRead = false) :
    s.pipe.data = strings msg ((s.writers.set i w').countP WriterPc.hasWritten) := by
  have hcount := countP_set_add (b := w') (p := WriterPc.hasWritten) hw
  rw [hsame] at hcount
  rw [hinv.data hread]
  congr 1
  omega

/-- A writer that closes its end is one writer less. -/
theorem WritersInv.closeWrite (hinv : WritersInv msg s) {w : WriterPc} (hw : w ∈ s.writers)
    (hopen : w.isOpen = true) :
    s.pipe.closeWrite.writers + (if w.isOpen then 1 else 0) = s.pipe.writers + 0 := by
  have hpos := List.countP_pos_iff.mpr ⟨w, hw, hopen⟩
  rw [← hinv.writers] at hpos
  rw [if_pos hopen]
  exact Nat.sub_add_cancel hpos

/-- Nobody has the fifo open for reading before the reader opens it and after it has exited. -/
theorem ReaderInv.readers_eq_zero_iff (hinv : ReaderInv msg s) :
    s.pipe.readers = 0 ↔ s.reader = .openRead ∨ s.reader = .exited := by
  rw [hinv.readers]
  cases s.reader <;> simp [ReaderPc.isOpen]

theorem ReaderInv.readOpenings_eq_zero_iff (hinv : ReaderInv msg s) :
    s.readOpenings = 0 ↔ s.reader = .openRead := by
  rw [hinv.openings]
  by_cases hpc : s.reader = .openRead <;> simp [hpc]

/-- A writer that leaves `open` does so because the reader has opened the fifo. -/
theorem Inv.opened_of_ne (hinv : Inv msg s) {c : ℕ} (hc : .waiting c ∈ s.writers)
    (hne : s.readOpenings ≠ c) : s.readOpenings ≠ 0 := by
  rcases hinv.writers.waiting c hc with rfl | ⟨-, hsame⟩
  · exact hne
  · exact absurd hsame.symm hne

theorem Inv.stepWriter (hinv : Inv msg s) {i : ℕ} (hstep : next msg s (.writer i) = some s') :
    Inv msg s' := by
  simp only [next] at hstep
  split at hstep
  · cases hstep
  next w hw =>
  have hmem := List.mem_of_getElem? hw
  obtain ⟨⟨w', pipe', openings'⟩, hsome, rfl⟩ := Option.map_eq_some_iff.mp hstep
  cases w with
  | openWrite =>
    simp only [Fifo.stepWriter, Option.some.injEq, Prod.mk.injEq] at hsome
    obtain ⟨hw', rfl, rfl⟩ := hsome
    split at hw'
    · next hzero =>
      cases hw'
      refine hinv.set_writer hw rfl rfl rfl rfl (fun h => h) (fun c hc => ?_)
        (by simp [WriterPc.hasWritten]) (by simp) (hinv.writers.data_set hw rfl)
      cases hc
      rcases hinv.reader.readers_eq_zero_iff.mp hzero with hpc | hpc
      · exact .inl (hinv.reader.readOpenings_eq_zero_iff.mpr hpc)
      · exact .inr ⟨hpc, rfl⟩
    · next hsome =>
      cases hw'
      refine hinv.set_writer hw rfl rfl rfl rfl (fun h => h) (by simp) (fun _ hpc => ?_) (by simp)
        (hinv.writers.data_set hw rfl)
      exact hsome (hinv.reader.readers_eq_zero_iff.mpr (.inl hpc))
  | waiting c =>
    simp only [Fifo.stepWriter] at hsome
    split at hsome
    · cases hsome
    next hne =>
    cases hsome
    refine hinv.set_writer hw rfl rfl rfl rfl (fun h => h) (by simp) (fun _ hpc => ?_) (by simp)
      (hinv.writers.data_set hw rfl)
    exact hinv.opened_of_ne hmem hne (hinv.reader.readOpenings_eq_zero_iff.mpr hpc)
  | write =>
    have hopen := hinv.writers.write (.inl hmem)
    simp only [Fifo.stepWriter] at hsome
    split at hsome
    · next hdone =>
      cases hsome
      obtain ⟨-, rfl⟩ := Pipe.write_eq_done_iff.mp hdone
      refine hinv.set_writer hw rfl rfl rfl rfl (fun _ => rfl) (by simp) (fun _ => hopen) (by simp)
        fun hread => ?_
      have hcount := countP_set_add (b := .close) (p := WriterPc.hasWritten) hw
      simp only [WriterPc.hasWritten, Bool.false_eq_true, if_false, if_true] at hcount
      rw [show (s.writers.set i .close).countP WriterPc.hasWritten =
        s.writers.countP WriterPc.hasWritten + 1 from hcount, strings_succ,
        ← hinv.writers.data hread]
    · cases hsome
    · next hsigpipe =>
      cases hsome
      have hzero := Pipe.write_eq_sigpipe_iff.mp hsigpipe
      have hpc := (hinv.reader.readers_eq_zero_iff.mp hzero).resolve_left hopen
      exact hinv.set_writer hw rfl (hinv.writers.closeWrite hmem rfl) rfl rfl (fun h => h)
        (by simp) (by simp [hpc]) (fun _ => hpc) (hinv.writers.data_set hw rfl)
  | close =>
    cases hsome
    have hopen := hinv.writers.write (.inr ⟨_, hmem, rfl⟩)
    exact hinv.set_writer hw rfl (hinv.writers.closeWrite hmem rfl) rfl rfl (fun h => h)
      (by simp) (fun _ => hopen) (by simp) (hinv.writers.data_set hw rfl)
  | exited | killed => cases hsome

theorem Inv.step (hinv : Inv msg s) (hmsg : Text msg) {l : Label} (hstep : next msg s l = some s') :
    Inv msg s' := by
  cases l with
  | reader => exact hinv.stepReader hmsg hstep
  | writer i => exact hinv.stepWriter hstep

theorem inv_of_run (hmsg : Text msg) {n : ℕ} {h : List (Event Fifo Label)}
    (hrun : (program msg n).Run h s) : Inv msg s := by
  refine hrun.invariant (I := Inv msg) ?_ fun s l s' _ hstep hinv => hinv.step hmsg hstep
  rintro s rfl
  exact inv_start msg n

/-! ## The end of the processes -/

/-- Statements left to the reader. -/
def ReaderPc.rank : ReaderPc → ℕ
  | .openRead => 5
  | .waiting _ => 4
  | .read => 3
  | .print => 2
  | .close => 1
  | .exited => 0

/-- Statements left to a writer. -/
def WriterPc.rank : WriterPc → ℕ
  | .openWrite => 4
  | .waiting _ => 3
  | .write => 2
  | .close => 1
  | .exited | .killed => 0

def rank (s : Fifo) : ℕ := s.reader.rank + (s.writers.map WriterPc.rank).sum

theorem rank_stepReader (hstep : s.stepReader = some s') :
    s'.reader.rank < s.reader.rank ∧ s'.writers = s.writers := by
  cases hpc : s.reader with
  | openRead =>
    simp only [Fifo.stepReader, hpc, Option.some.injEq] at hstep
    subst hstep
    by_cases hzero : s.pipe.writers = 0 <;> simp [hzero, ReaderPc.rank]
  | waiting c =>
    simp only [Fifo.stepReader, hpc] at hstep
    split at hstep
    · cases hstep
    · cases hstep
      simp [ReaderPc.rank]
  | read =>
    simp only [Fifo.stepReader, hpc] at hstep
    cases hr : s.pipe.read bufSize with
    | data bytes pipe =>
      rw [hr] at hstep
      cases hstep
      simp [ReaderPc.rank]
    | eof =>
      rw [hr] at hstep
      cases hstep
      simp [ReaderPc.rank]
    | empty => simp [hr] at hstep
  | print =>
    simp only [Fifo.stepReader, hpc] at hstep
    obtain ⟨text, -, rfl⟩ := Option.map_eq_some_iff.mp hstep
    simp [ReaderPc.rank]
  | close =>
    simp only [Fifo.stepReader, hpc] at hstep
    cases hstep
    simp [ReaderPc.rank]
  | exited => simp [Fifo.stepReader, hpc] at hstep

theorem rank_stepWriter {w w' : WriterPc} {pipe' : Pipe} {openings' : ℕ}
    (hstep : s.stepWriter msg w = some (w', pipe', openings')) : w'.rank < w.rank := by
  cases w with
  | openWrite =>
    simp only [Fifo.stepWriter, Option.some.injEq, Prod.mk.injEq] at hstep
    rw [← hstep.1]
    split <;> simp [WriterPc.rank]
  | waiting c =>
    simp only [Fifo.stepWriter] at hstep
    split at hstep
    · cases hstep
    · cases hstep
      simp [WriterPc.rank]
  | write =>
    simp only [Fifo.stepWriter] at hstep
    split at hstep
    · cases hstep
      simp [WriterPc.rank]
    · cases hstep
    · cases hstep
      simp [WriterPc.rank]
  | close =>
    cases hstep
    simp [WriterPc.rank]
  | exited | killed => cases hstep

theorem rank_lt {l : Label} (hstep : next msg s l = some s') : s'.rank < s.rank := by
  cases l with
  | reader =>
    obtain ⟨hlt, hsame⟩ := rank_stepReader hstep
    rw [rank, rank, hsame]
    omega
  | writer i =>
    simp only [next] at hstep
    split at hstep
    · cases hstep
    next w hw =>
    obtain ⟨⟨w', pipe', openings'⟩, hsome, rfl⟩ := Option.map_eq_some_iff.mp hstep
    have hlt := rank_stepWriter hsome
    have hsum := sum_map_set_add (b := w') (f := WriterPc.rank) hw
    simp only [rank]
    omega

theorem length_writers_of_step {l : Label} (hstep : next msg s l = some s') :
    s'.writers.length = s.writers.length := by
  cases l with
  | reader => rw [(rank_stepReader hstep).2]
  | writer i =>
    simp only [next] at hstep
    split at hstep
    · cases hstep
    · obtain ⟨_, -, rfl⟩ := Option.map_eq_some_iff.mp hstep
      exact List.length_set

theorem length_writers_of_run {n : ℕ} {h : List (Event Fifo Label)}
    (hrun : (program msg n).Run h s) : s.writers.length = n := by
  refine hrun.invariant (I := fun s => s.writers.length = n) ?_ fun s l s' _ hstep hlen =>
    (length_writers_of_step hstep).trans hlen
  rintro s rfl
  exact List.length_replicate

/-- Where no statement is left to anybody, none is left to the reader or to a writer. -/
theorem none_of_stuck (hstuck : ∀ l s', next msg s l ≠ some s') :
    s.stepReader = none ∧ ∀ w ∈ s.writers, s.stepWriter msg w = none := by
  refine ⟨Option.eq_none_iff_forall_ne_some.mpr fun s' => hstuck .reader s', fun w hw => ?_⟩
  obtain ⟨i, hi⟩ := List.mem_iff_getElem?.mp hw
  have hnone := Option.eq_none_iff_forall_ne_some.mpr (hstuck (.writer i))
  rw [next, hi] at hnone
  exact Option.map_eq_none_iff.mp hnone

/-- While the reader waits for something to read, a writer is about to write it. -/
theorem Inv.writer_goes_on (hinv : Inv msg s) (hmsg : Text msg) (hpc : s.reader = .read)
    (hempty : s.pipe.data = []) : ∃ w ∈ s.writers, s.stepWriter msg w ≠ none := by
  have hopen : s.pipe.writers ≠ 0 := fun hzero =>
    hinv.not_eof hpc (Pipe.read_eq_eof_iff.mpr ⟨hempty, hzero⟩)
  rw [hinv.writers.writers] at hopen
  obtain ⟨w, hw, hwopen⟩ := List.countP_pos_iff.mp (Nat.pos_of_ne_zero hopen)
  refine ⟨w, hw, ?_⟩
  cases w with
  | waiting c =>
    obtain rfl := (hinv.writers.waiting c hw).resolve_right (by simp [hpc])
    have hopened : s.readOpenings ≠ 0 := fun hzero => by
      rw [hinv.reader.readOpenings_eq_zero_iff.mp hzero] at hpc
      cases hpc
    simp [Fifo.stepWriter, hopened]
  | write =>
    have hreaders : 0 < s.pipe.readers := by
      rw [hinv.reader.readers, hpc]
      exact Nat.one_pos
    have hlt := hmsg.length_lt
    have hroom : s.pipe.data.length + (msg ++ [0]).length ≤ Pipe.capacity := by
      simp only [hempty, List.length_nil, List.length_append, List.length_singleton,
        Pipe.capacity, bufSize] at hlt ⊢
      omega
    simp [Fifo.stepWriter, Pipe.write_of_room hreaders hroom]
  | close => simp [Fifo.stepWriter]
  | openWrite | exited | killed => cases hwopen

/-- The reader has exited. -/
theorem Inv.reader_exited (hinv : Inv msg s) (hmsg : Text msg) (hsome : s.writers ≠ [])
    (hreader : s.stepReader = none) (hwriters : ∀ w ∈ s.writers, s.stepWriter msg w = none) :
    s.reader = .exited := by
  cases hpc : s.reader with
  | exited => rfl
  | openRead => simp [Fifo.stepReader, hpc] at hreader
  | waiting c =>
    -- Then no writer has opened the fifo, and all can.
    exfalso
    obtain rfl := hinv.reader.waiting c hpc
    have hnone : s.writeOpenings = 0 := by simpa [Fifo.stepReader, hpc] using hreader
    rw [hinv.writers.openings] at hnone
    obtain ⟨w, hw⟩ := List.exists_mem_of_ne_nil _ hsome
    have hclosed := List.countP_eq_zero.mp hnone w hw
    cases w with
    | openWrite => simpa [Fifo.stepWriter] using hwriters _ hw
    | _ => exact hclosed rfl
  | read =>
    exfalso
    by_cases hempty : s.pipe.data = []
    · obtain ⟨w, hw, hgo⟩ := hinv.writer_goes_on hmsg hpc hempty
      exact hgo (hwriters w hw)
    · simp [Fifo.stepReader, hpc, Pipe.read_of_ne_nil hempty] at hreader
  | print =>
    have htext := hinv.reader.buffer (by rw [hpc]; rfl)
    simp [Fifo.stepReader, hpc, htext] at hreader
  | close => simp [Fifo.stepReader, hpc] at hreader

/-- Once the reader has exited a writer goes on to its end, or waits for another reader. -/
theorem Inv.writer_ended (hinv : Inv msg s) (hexited : s.reader = .exited) {w : WriterPc}
    (hw : w ∈ s.writers) (hnone : s.stepWriter msg w = none) :
    w = .exited ∨ w = .killed ∨ w = .waiting 1 := by
  have hopenings : s.readOpenings = 1 := by rw [hinv.reader.openings, hexited]; rfl
  have hreaders := hinv.reader.readers_eq_zero_iff.mpr (.inr hexited)
  cases w with
  | openWrite => simp [Fifo.stepWriter] at hnone
  | waiting c =>
    have hc : s.readOpenings = c := by simpa [Fifo.stepWriter] using hnone
    rw [← hc, hopenings]
    exact .inr (.inr rfl)
  | write => simp [Fifo.stepWriter, Pipe.write_eq_sigpipe_iff.mpr hreaders] at hnone
  | close => simp [Fifo.stepWriter] at hnone
  | exited => exact .inl rfl
  | killed => exact .inr (.inl rfl)

theorem Inv.ended (hinv : Inv msg s) (hmsg : Text msg) (hsome : s.writers ≠ [])
    (hstuck : ∀ l s', next msg s l ≠ some s') :
    s.reader = .exited ∧ s.printed = some msg ∧ .exited ∈ s.writers ∧
      ∀ w ∈ s.writers, w = .exited ∨ w = .killed ∨ w = .waiting 1 := by
  obtain ⟨hreader, hwriters⟩ := none_of_stuck hstuck
  have hexited := hinv.reader_exited hmsg hsome hreader hwriters
  have hended : ∀ w ∈ s.writers, w = .exited ∨ w = .killed ∨ w = .waiting 1 := fun w hw =>
    hinv.writer_ended hexited hw (hwriters w hw)
  refine ⟨hexited, ?_, ?_, hended⟩
  · rw [hinv.reader.printed, if_pos (.inr hexited)]
  · -- The string that was read has been written by somebody.
    obtain ⟨w, hw, hwritten⟩ := hinv.reader.read (by rw [hexited]; rfl)
    rcases hended w hw with rfl | rfl | rfl
    · exact hw
    · cases hwritten
    · cases hwritten

end Inv

/-- **The string arrives.**  The reader and `n` writers, of which there is at least one, come in
any order.  In every run the reader prints the string or has not printed yet, and a writer is
killed only after the reader has printed.  From every state the steps of the processes are
bounded, whatever their order, and lead to a state in which the reader has printed the string and
exited, a writer has exited, and every other has too, was killed by `SIGPIPE`, or came too late
and waits in `open` for another reader. -/
theorem fifo_delivers (msg : List UInt8) (hmsg : Text msg) (n : ℕ) (hn : 0 < n)
    (h : List (Event Fifo Label)) (s : Fifo) (hrun : (program msg n).Run h s) :
    (s.printed = none ∨ s.printed = some msg) ∧
    (.killed ∈ s.writers → s.reader = .exited ∧ s.printed = some msg) ∧
    (program msg n).Completes (fun _ => True) (fun _ s' =>
      s'.reader = .exited ∧ s'.printed = some msg ∧ .exited ∈ s'.writers ∧
        ∀ w ∈ s'.writers, w = .exited ∨ w = .killed ∨ w = .waiting 1) s := by
  have hinv := inv_of_run hmsg hrun
  have hlen := length_writers_of_run hrun
  refine ⟨?_, fun hk => ?_, ?_⟩
  · rw [hinv.reader.printed]
    split
    · exact .inr rfl
    · exact .inl rfl
  · have hexited := hinv.writers.killed hk
    exact ⟨hexited, by rw [hinv.reader.printed, if_pos (.inr hexited)]⟩
  · refine System.completes_of_rank rank (I := fun s => Inv msg s ∧ s.writers.length = n)
      (fun s l s' hstep _ hI => ?_) (fun s l s' hstep _ _ => rank_lt hstep)
      (fun h' s' _ hI hstuck => ?_) ⟨hinv, hlen⟩
    · exact ⟨hI.1.step hmsg hstep, (length_writers_of_step hstep).trans hI.2⟩
    · refine hI.1.ended hmsg ?_ fun l s'' hstep => hstuck l s'' hstep trivial
      exact List.ne_nil_of_length_pos (hI.2.symm ▸ hn)

/-- Two writers, of which the second is killed, since the reader has gone. -/
theorem fifo_delivers_two_writers : ∃ h s, (program [104, 105] 2).Run h s ∧
    .killed ∈ s.writers ∧ s.printed = some [104, 105] := by
  obtain ⟨h, s, hrun, htest⟩ := System.exists_run_of_exec (start 2) (next [104, 105])
    [.writer 0, .reader, .writer 1, .writer 0, .writer 0, .reader, .reader, .reader, .writer 0,
      .writer 1]
    (fun _ s => decide (.killed ∈ s.writers)) (by decide +kernel)
  have hkilled : .killed ∈ s.writers := of_decide_eq_true htest
  exact ⟨h, s, hrun, hkilled,
    ((fifo_delivers [104, 105] ⟨by decide, by decide⟩ 2 (by decide) h s hrun).2.1 hkilled).2⟩

end Fifo

end LinuxExercise.Processes
