import LinuxExercise.Framework.System

/-!
# The programs that share `mmap.temp` (`005_process_IPC/07mmap_IPC`, `08mmap_process`)

The writer makes the file `DEF_MMAP_FILE_LEN` bytes long and maps it.  The reader takes the size
of the file first, gives up if it is below 1 and maps as many bytes.  The record reader of
`08mmap_process` removes the name `mmap.temp` once it has mapped the file; otherwise it is the
same program.

The readers take the size with `lseek(fd_mmap_shared, SEEK_END, 0)`, which has the last two
arguments the wrong way round: it goes to the offset `SEEK_END`, which is 2, from the beginning.
So the guard never fires and the mapping is always two bytes long (`Inv`).
-/

namespace LinuxExercise.Files

namespace MmapFile

/-- `DEF_MMAP_FILE_LEN`. -/
def defMmapFileLen : ℕ := 0x500

/-- The size of a page. -/
def pageSize : ℕ := 4096

def seekSet : ℤ := 0

def seekCur : ℤ := 1

def seekEnd : ℤ := 2

/-- The offset that `lseek` returns, on a file of size `size` opened at `pos`. -/
def lseek (pos size : ℕ) (offset whence : ℤ) : ℤ :=
  let target :=
    if whence = seekSet then offset
    else if whence = seekCur then pos + offset
    else if whence = seekEnd then size + offset
    else -1
  if target < 0 then -1 else target

/-! ## The file system -/

/-- The name `mmap.temp` and the files that it has stood for. -/
structure Disk where
  /-- The file of that name, if there is one. -/
  path : Option ℕ
  size : ℕ → ℕ
  /-- The number of the next file to be created. -/
  next : ℕ

/-- `open("mmap.temp", O_RDWR | O_CREAT, 0777)`: the file, and the disk after the call. -/
def Disk.openCreat (d : Disk) : ℕ × Disk :=
  match d.path with
  | some file => (file, d)
  | none =>
    (d.next, { path := some d.next, size := Function.update d.size d.next 0, next := d.next + 1 })

/-- `write` of one byte at `pos`. -/
def Disk.writeByte (d : Disk) (file pos : ℕ) : Disk :=
  { d with size := Function.update d.size file (max (d.size file) (pos + 1)) }

/-! ## The writer -/

inductive WriterPc
  | openFile
  | lseek
  | write
  | mmap
  | close
  /-- The test for `MAP_FAILED`. -/
  | check
  /-- `while (1) { sprintf(p_mmap, ...); sleep(2); }`. -/
  | loop
  | exited (status : ℤ)
  deriving DecidableEq, Repr

structure Writer where
  pc : WriterPc
  /-- The file that `fd_mmap_shared` refers to, and the offset. -/
  file : ℕ
  pos : ℕ
  /-- The length of the mapping at `p_mmap`, unless that is `MAP_FAILED`. -/
  map : Option ℕ
  deriving DecidableEq, Repr

/-- One call of the writer; `ok` says that it succeeds, if it may fail. -/
def Writer.step (ok : Bool) (w : Writer) (d : Disk) : Option (Writer × Disk) :=
  match w.pc with
  | .openFile =>
    if ok then
      let (file, d') := d.openCreat
      some ({ w with pc := .lseek, file := file, pos := 0 }, d')
    else some ({ w with pc := .exited (-1) }, d)
  | .lseek =>
    let target := MmapFile.lseek w.pos (d.size w.file) (defMmapFileLen - 1 : ℕ) seekSet
    some ({ w with pc := .write, pos := target.toNat }, d)
  | .write => some ({ w with pc := .mmap }, if ok then d.writeByte w.file w.pos else d)
  | .mmap => some ({ w with pc := .close, map := if ok then some defMmapFileLen else none }, d)
  | .close => some ({ w with pc := .check }, d)
  | .check => some ({ w with pc := if w.map = none then .exited (-2) else .loop }, d)
  | .loop => some (w, d)
  | .exited _ => none

/-! ## The readers -/

/-- The reader of `07mmap_IPC` and the record reader of `08mmap_process`. -/
inductive Kind
  | text
  | record
  deriving DecidableEq, Repr

inductive ReaderPc
  | openFile
  | lseek
  /-- `if (mmap_file_size < 1)`. -/
  | checkSize
  | mmap
  | close
  /-- `unlink("./mmap.temp")`, in the record reader. -/
  | unlink
  /-- The test for `MAP_FAILED`. -/
  | checkMap
  /-- `while (1) { printf(...); sleep(1); }`. -/
  | loop
  | exited (status : ℤ)
  deriving DecidableEq, Repr

structure Reader where
  pc : ReaderPc
  /-- The file that `fd_mmap_shared` refers to. -/
  file : ℕ
  /-- `mmap_file_size`. -/
  fileSize : ℤ
  /-- The length of the mapping at `p_mmap`, unless that is `MAP_FAILED`. -/
  map : Option ℕ
  /-- History: the size of the file at the time of the `lseek`. -/
  taken : ℕ
  deriving DecidableEq, Repr

/-- One call of a reader; `ok` says that it succeeds, if it may fail. -/
def Reader.step (kind : Kind) (ok : Bool) (r : Reader) (d : Disk) : Option (Reader × Disk) :=
  match r.pc with
  | .openFile =>
    if ok then
      let (file, d') := d.openCreat
      some ({ r with pc := .lseek, file := file }, d')
    else some ({ r with pc := .exited (-1) }, d)
  | .lseek =>
    let size := d.size r.file
    some ({ r with pc := .checkSize, fileSize := lseek 0 size seekEnd 0, taken := size }, d)
  | .checkSize => some ({ r with pc := if r.fileSize < 1 then .exited (-2) else .mmap }, d)
  | .mmap => some ({ r with pc := .close, map := if ok then some r.fileSize.toNat else none }, d)
  | .close =>
    some ({ r with pc := match kind with | .text => .checkMap | .record => .unlink }, d)
  | .unlink =>
    if ok ∧ d.path ≠ none then some ({ r with pc := .checkMap }, { d with path := none })
    else some ({ r with pc := .exited (-3) }, d)
  | .checkMap => some ({ r with pc := if r.map = none then .exited (-2) else .loop }, d)
  | .loop => some (r, d)
  | .exited _ => none

end MmapFile

open MmapFile in
/-- The two programs and the disk between them. -/
structure MmapFile where
  disk : Disk
  writer : Writer
  reader : Reader

namespace MmapFile

inductive Label
  | writer (ok : Bool)
  | reader (ok : Bool)
  deriving DecidableEq, Repr

/-- A step of one of the programs. -/
def next (kind : Kind) (s : MmapFile) : Label → Option MmapFile
  | .writer ok => (s.writer.step ok s.disk).map fun (w, d) => { s with writer := w, disk := d }
  | .reader ok =>
    (s.reader.step kind ok s.disk).map fun (r, d) => { s with reader := r, disk := d }

/-- Neither program has begun; `size` is the size of `mmap.temp` if it exists. -/
def start (size : Option ℕ) : MmapFile where
  disk := { path := size.map fun _ => 0, size := fun _ => size.getD 0, next := 1 }
  writer := { pc := .openFile, file := 0, pos := 0, map := none }
  reader := { pc := .openFile, file := 0, fileSize := 0, map := none, taken := 0 }

/-- The programs, started with a file of the given size or none. -/
def programs (kind : Kind) (size : Option ℕ) : System MmapFile Label :=
  .ofStep (start size) (next kind)

/-! ## The disk -/

/-- No file has become smaller. -/
structure Disk.Grows (d d' : Disk) : Prop where
  next_le : d.next ≤ d'.next
  size_le : ∀ file < d.next, d.size file ≤ d'.size file

/-- The name stands for a file that exists. -/
def Disk.Ok (d : Disk) : Prop := ∀ file, d.path = some file → file < d.next

theorem Disk.Grows.refl (d : Disk) : d.Grows d := ⟨le_rfl, fun _ _ => le_rfl⟩

theorem Disk.Grows.openCreat (d : Disk) : d.Grows d.openCreat.2 := by
  unfold Disk.openCreat
  cases d.path with
  | some file => exact .refl d
  | none =>
    refine ⟨Nat.le_succ _, fun file hfile => ?_⟩
    show d.size file ≤ Function.update d.size d.next 0 file
    rw [Function.update_of_ne hfile.ne]

theorem Disk.Grows.writeByte (d : Disk) (file pos : ℕ) : d.Grows (d.writeByte file pos) := by
  refine ⟨le_rfl, fun other _ => ?_⟩
  show d.size other ≤ Function.update d.size file _ other
  by_cases h : other = file
  · subst h
    rw [Function.update_self]
    exact le_max_left _ _
  · rw [Function.update_of_ne h]

theorem Disk.Ok.openCreat {d : Disk} (h : d.Ok) :
    d.openCreat.1 < d.openCreat.2.next ∧ d.openCreat.2.Ok := by
  unfold Disk.openCreat
  cases hpath : d.path with
  | some file => exact ⟨h file hpath, h⟩
  | none =>
    refine ⟨Nat.lt_succ_self _, fun file hfile => ?_⟩
    obtain rfl := Option.some.inj hfile
    exact Nat.lt_succ_self _

/-! ## One step -/

/-- What the writer can do to the disk. -/
theorem Writer.step_disk {ok : Bool} {w w' : Writer} {d d' : Disk}
    (h : w.step ok d = some (w', d')) (hok : d.Ok) : d.Grows d' ∧ d'.Ok := by
  unfold Writer.step at h
  cases hpc : w.pc with
  | openFile =>
    rw [hpc] at h
    cases ok with
    | true =>
      obtain ⟨-, rfl⟩ := Prod.mk.inj (Option.some.inj h)
      exact ⟨.openCreat d, hok.openCreat.2⟩
    | false =>
      obtain ⟨-, rfl⟩ := Prod.mk.inj (Option.some.inj h)
      exact ⟨.refl d, hok⟩
  | write =>
    rw [hpc] at h
    obtain ⟨-, rfl⟩ := Prod.mk.inj (Option.some.inj h)
    cases ok with
    | true => exact ⟨.writeByte d _ _, hok⟩
    | false => exact ⟨.refl d, hok⟩
  | lseek | mmap | close | check | loop =>
    rw [hpc] at h
    obtain ⟨-, rfl⟩ := Prod.mk.inj (Option.some.inj h)
    exact ⟨.refl d, hok⟩
  | exited => simp [hpc] at h

/-- What the `lseek` has told the reader: 2, whatever the size. -/
def Reader.Taken (r : Reader) (d : Disk) : Prop :=
  r.file < d.next ∧ r.taken ≤ d.size r.file ∧ r.fileSize = 2

/-- What is known of the reader at each place. -/
def Reader.Inv (r : Reader) (d : Disk) : Prop :=
  match r.pc with
  | .openFile | .exited _ => True
  | .lseek => r.file < d.next
  | .checkSize | .mmap => r.Taken d
  | .close | .unlink | .checkMap => r.Taken d ∧ ∀ n, r.map = some n → n = 2
  | .loop => r.Taken d ∧ r.map = some 2

theorem Reader.Taken.mono {r : Reader} {d d' : Disk} (h : r.Taken d) (hgrows : d.Grows d') :
    r.Taken d' :=
  ⟨h.1.trans_le hgrows.next_le, h.2.1.trans (hgrows.size_le _ h.1), h.2.2⟩

/-- The reader does not notice what happens to the disk as long as its file does not shrink. -/
theorem Reader.Inv.mono {r : Reader} {d d' : Disk} (h : r.Inv d) (hgrows : d.Grows d') :
    r.Inv d' := by
  unfold Reader.Inv at h ⊢
  cases hpc : r.pc with
  | openFile | exited => trivial
  | lseek =>
    rw [hpc] at h
    exact h.trans_le hgrows.next_le
  | checkSize | mmap =>
    rw [hpc] at h
    exact h.mono hgrows
  | close | unlink | checkMap | loop =>
    rw [hpc] at h
    exact ⟨h.1.mono hgrows, h.2⟩

/-- A step of the reader itself. -/
theorem Reader.Inv.step {kind : Kind} {ok : Bool} {r r' : Reader} {d d' : Disk}
    (h : r.step kind ok d = some (r', d')) (hok : d.Ok) (hinv : r.Inv d) :
    r'.Inv d' ∧ d'.Ok := by
  unfold Reader.step at h
  unfold Reader.Inv at hinv
  cases hpc : r.pc with
  | openFile =>
    rw [hpc] at h
    cases ok with
    | true =>
      obtain ⟨rfl, rfl⟩ := Prod.mk.inj (Option.some.inj h)
      exact hok.openCreat
    | false =>
      obtain ⟨rfl, rfl⟩ := Prod.mk.inj (Option.some.inj h)
      exact ⟨trivial, hok⟩
  | lseek =>
    rw [hpc] at h hinv
    obtain ⟨rfl, rfl⟩ := Prod.mk.inj (Option.some.inj h)
    -- `SEEK_END` is the offset and `0` is `SEEK_SET`
    exact ⟨⟨hinv, le_rfl, rfl⟩, hok⟩
  | checkSize =>
    rw [hpc] at h hinv
    obtain ⟨rfl, rfl⟩ := Prod.mk.inj (Option.some.inj h)
    refine ⟨?_, hok⟩
    rw [if_neg (by rw [hinv.2.2]; decide)]
    exact hinv
  | mmap =>
    rw [hpc] at h hinv
    obtain ⟨rfl, rfl⟩ := Prod.mk.inj (Option.some.inj h)
    refine ⟨⟨hinv, fun n hn => ?_⟩, hok⟩
    cases ok with
    | true =>
      obtain rfl := Option.some.inj hn
      rw [hinv.2.2]
      rfl
    | false => cases hn
  | close =>
    rw [hpc] at h hinv
    obtain ⟨rfl, rfl⟩ := Prod.mk.inj (Option.some.inj h)
    cases kind with
    | text | record => exact ⟨hinv, hok⟩
  | unlink =>
    rw [hpc] at h hinv
    by_cases hunlink : ok = true ∧ d.path ≠ none
    · rw [if_pos hunlink] at h
      obtain ⟨rfl, rfl⟩ := Prod.mk.inj (Option.some.inj h)
      exact ⟨hinv, fun file hfile => by cases hfile⟩
    · rw [if_neg hunlink] at h
      obtain ⟨rfl, rfl⟩ := Prod.mk.inj (Option.some.inj h)
      exact ⟨trivial, hok⟩
  | checkMap =>
    rw [hpc] at h hinv
    obtain ⟨rfl, rfl⟩ := Prod.mk.inj (Option.some.inj h)
    refine ⟨?_, hok⟩
    cases hmap : r.map with
    | none => exact trivial
    | some n =>
      obtain rfl := hinv.2 n hmap
      exact ⟨hinv.1, rfl⟩
  | loop =>
    rw [hpc] at h hinv
    obtain ⟨rfl, rfl⟩ := Prod.mk.inj (Option.some.inj h)
    refine ⟨?_, hok⟩
    rw [Reader.Inv, hpc]
    exact hinv
  | exited => simp [hpc] at h

/-! ## All interleavings -/

theorem inv_of_run {kind : Kind} {size : Option ℕ} {h : List (Event MmapFile Label)}
    {s : MmapFile} (hrun : (programs kind size).Run h s) : s.reader.Inv s.disk ∧ s.disk.Ok := by
  refine hrun.invariant (I := fun s => s.reader.Inv s.disk ∧ s.disk.Ok) ?_ ?_
  · rintro s rfl
    refine ⟨trivial, fun file hfile => ?_⟩
    obtain ⟨n, -, rfl⟩ := Option.map_eq_some_iff.mp hfile
    exact Nat.zero_lt_one
  · intro s l s' _ hstep hinv
    cases l with
    | writer ok =>
      obtain ⟨⟨w, d⟩, hw, rfl⟩ := Option.map_eq_some_iff.mp hstep
      obtain ⟨hgrows, hok⟩ := Writer.step_disk hw hinv.2
      exact ⟨hinv.1.mono hgrows, hok⟩
    | reader ok =>
      obtain ⟨⟨r, d⟩, hr, rfl⟩ := Option.map_eq_some_iff.mp hstep
      exact Reader.Inv.step hr hinv.2 hinv.1

/-- In its loop the reader has a mapping as long as the file was when it took the size, the file
was not empty then, and each page of the mapping begins below the end of the file. -/
def NeverPast (s : MmapFile) : Prop :=
  s.reader.pc = .loop → 0 < s.reader.taken ∧ s.reader.map = some s.reader.taken ∧
    ∀ n, s.reader.map = some n → ∀ i < n, i / pageSize * pageSize < s.disk.size s.reader.file

/-- **The mapping is right exactly when the file happened to be two bytes long**: for both
readers, from every file and in every interleaving with the writer. -/
theorem never_past_iff (kind : Kind) (size : Option ℕ) (h : List (Event MmapFile Label))
    (s : MmapFile) (hrun : (programs kind size).Run h s) :
    NeverPast s ↔ (s.reader.pc = .loop → s.reader.taken = 2) := by
  obtain ⟨hinv, -⟩ := inv_of_run hrun
  refine forall_congr' fun hloop => ?_
  rw [Reader.Inv, hloop] at hinv
  obtain ⟨⟨-, hle, -⟩, hmap⟩ := hinv
  constructor
  · rintro ⟨-, htaken, -⟩
    rw [hmap] at htaken
    exact (Option.some.inj htaken).symm
  · intro htaken
    refine ⟨by omega, by rw [hmap, htaken], fun n hn i hi => ?_⟩
    rw [hmap] at hn
    obtain rfl := Option.some.inj hn
    have hpage := Nat.div_mul_le_self i pageSize
    omega

/-- A run of the record reader alone, on a file of two bytes. -/
theorem never_past_two_bytes : ∃ h s, (programs .record (some 2)).Run h s ∧
    s.reader.pc = .loop ∧ NeverPast s := by
  obtain ⟨h, s, hrun, htest⟩ := System.exists_run_of_exec (start (some 2)) (next .record)
    (List.replicate 7 (.reader true))
    (fun _ s => decide (s.reader.pc = .loop ∧ s.reader.taken = 2)) (by decide)
  obtain ⟨hloop, htaken⟩ := of_decide_eq_true htest
  exact ⟨h, s, hrun, hloop, (never_past_iff _ _ h s hrun).mpr fun _ => htaken⟩

/-- The reader is started before the writer: it creates the file, takes the size of the empty
file to be two and maps it. -/
theorem reader_maps_empty_file : ¬ ∀ (kind : Kind) (size : Option ℕ)
    (h : List (Event MmapFile Label)) (s : MmapFile),
    (programs kind size).Run h s → NeverPast s := by
  intro hclaim
  obtain ⟨h, s, hrun, htest⟩ := System.exists_run_of_exec (start none) (next .text)
    (List.replicate 6 (.reader true))
    (fun _ s => decide (s.reader.pc = .loop ∧ s.reader.taken = 0)) (by decide)
  obtain ⟨hloop, htaken⟩ := of_decide_eq_true htest
  have hpos := (hclaim .text none h s hrun hloop).1
  omega

end MmapFile

end LinuxExercise.Files
