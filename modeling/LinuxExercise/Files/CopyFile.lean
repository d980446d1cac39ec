import Mathlib.Tactic

/-!
# The file copy program (`002_file/05myCopyFileProgram.c`)

The program checks that it has two arguments and that the source can be opened; everything that
happens after that it takes as a success.  It does not look at the descriptor of the destination
nor at what `write` returns, and a `read` that fails ends the loop like the end of the file.

What the calls return is data: a `Round` is one turn of the loop, and `Possible` says what the
system may return.  The end result is compared with the source by its length: what is written is
a sublist of what is read, and that is a prefix of the source (`length_copyLoop`).
-/

namespace LinuxExercise.Files.CopyFile

/-- `BUF_SIZE`. -/
def bufSize : ℕ := 8 * 1048

/-- One turn of the loop. -/
structure Round where
  /-- The value of `read`, which was positive. -/
  nReadCount : ℕ
  /-- The value of `write`: a number of bytes, or `-1`. -/
  write : Option ℕ
  deriving DecidableEq, Repr

/-- How many bytes the `write` of a turn has written. -/
def Round.written (r : Round) : ℕ := r.write.getD 0

/-- The last `read`, which ends the loop. -/
inductive LastRead
  | eof
  | error
  deriving DecidableEq, Repr

/-- The file named by `argv[2]`. -/
inductive Dest
  /-- It is the source itself. -/
  | source
  /-- Another file, with the content it has before, or none if it does not exist. -/
  | other (content : Option (List UInt8))
  deriving DecidableEq, Repr

/-- The arguments and the outcomes of the calls. -/
structure Calls where
  argc : ℕ
  dest : Dest
  openSrc : Bool
  openDest : Bool
  rounds : List Round
  last : LastRead
  deriving DecidableEq, Repr

/-! ## The program -/

/-- What the destination holds before the program runs. -/
def Dest.before (src : List UInt8) : Dest → Option (List UInt8)
  | .source => some src
  | .other content => content

/-- What the source holds after `open(argv[2], O_CREAT | O_WRONLY | O_TRUNC, 777)`. -/
def Dest.srcAfterOpen (src : List UInt8) (opened : Bool) : Dest → List UInt8
  | .source => if opened then [] else src
  | .other _ => src

/-- The bytes that the loop appends to the destination: each turn reads the next `nReadCount`
bytes into `buffer` and writes some of them from its beginning. -/
def copyLoop : List Round → List UInt8 → List UInt8
  | [], _ => []
  | r :: rounds, src =>
    let buffer := src.take r.nReadCount
    buffer.take r.written ++ copyLoop rounds (src.drop r.nReadCount)

/-- How the program ends. -/
structure End where
  /-- The argument of `exit`, or the value that `main` returns. -/
  status : ℤ
  /-- The content of the destination, if it exists. -/
  dest : Option (List UInt8)
  deriving DecidableEq, Repr

/-- `main`. -/
def main (c : Calls) (src : List UInt8) : End :=
  let old := c.dest.before src
  if c.argc < 3 then { status := -1, dest := old }
  else if !c.openSrc then { status := -2, dest := old }
  -- `fd_write_dest` is not checked: without it each `write` fails and the old file is kept
  else if !c.openDest then { status := 0, dest := old }
  else { status := 0, dest := some (copyLoop c.rounds (c.dest.srcAfterOpen src true)) }

/-! ## What the calls may return -/

/-- `read` returns from `1` to `BUF_SIZE` bytes, `write` fails or takes at least one of them. -/
structure Round.Possible (r : Round) (fd : Bool) : Prop where
  read_pos : 0 < r.nReadCount
  read_le : r.nReadCount ≤ bufSize
  write_pos : ∀ n, r.write = some n → 0 < n
  write_le : ∀ n, r.write = some n → n ≤ r.nReadCount
  /-- A `write` to the descriptor `-1` fails. -/
  write_bad : fd = false → r.write = none

/-- What the turns read together. -/
def readTotal (rounds : List Round) : ℕ := (rounds.map Round.nReadCount).sum

/-- What the turns write together. -/
def writtenTotal (rounds : List Round) : ℕ := (rounds.map Round.written).sum

/-- The outcomes are those of calls on a source with the content `src`. -/
structure Possible (c : Calls) (src : List UInt8) : Prop where
  rounds : ∀ r ∈ c.rounds, r.Possible c.openDest
  /-- `read` does not go beyond the end. -/
  read_le : readTotal c.rounds ≤ (c.dest.srcAfterOpen src c.openDest).length
  /-- `read` returns `0` at the end only. -/
  eof : c.last = .eof → readTotal c.rounds = (c.dest.srcAfterOpen src c.openDest).length

/-- A `write` that has written all it was given. -/
def Round.Full (r : Round) : Prop := r.write = some r.nReadCount

instance (r : Round) : Decidable r.Full := inferInstanceAs (Decidable (r.write = _))

/-! ## The loop -/

theorem Round.Possible.written_le {r : Round} {fd : Bool} (h : r.Possible fd) :
    r.written ≤ r.nReadCount := by
  rw [Round.written]
  cases hw : r.write with
  | none => exact Nat.zero_le _
  | some n => exact h.write_le n hw

theorem Round.Possible.full_iff {r : Round} {fd : Bool} (h : r.Possible fd) :
    r.Full ↔ r.written = r.nReadCount := by
  have hpos := h.read_pos
  rw [Round.Full, Round.written]
  cases r.write with
  | none =>
    rw [Option.getD_none]
    constructor
    · intro hn
      cases hn
    · omega
  | some n => rw [Option.getD_some, Option.some_inj]

/-- The program appends as many bytes as the calls of `write` report. -/
theorem length_copyLoop {rounds : List Round} {fd : Bool} (h : ∀ r ∈ rounds, r.Possible fd)
    {src : List UInt8} (hlen : readTotal rounds ≤ src.length) :
    (copyLoop rounds src).length = writtenTotal rounds := by
  induction rounds generalizing src with
  | nil => rfl
  | cons r rounds ih =>
    rw [List.forall_mem_cons] at h
    have htotal : readTotal (r :: rounds) = r.nReadCount + readTotal rounds := List.sum_cons
    have hdrop : readTotal rounds ≤ (src.drop r.nReadCount).length := by
      rw [List.length_drop]
      omega
    have hrest := ih h.2 hdrop
    have hw := h.1.written_le
    have htake : ((src.take r.nReadCount).take r.written).length = r.written := by
      rw [List.length_take, List.length_take]
      omega
    rw [copyLoop, List.length_append, htake, hrest]
    exact List.sum_cons.symm

/-- When all calls of `write` are full the program copies what it reads. -/
theorem copyLoop_full {rounds : List Round} (h : ∀ r ∈ rounds, r.Full) (src : List UInt8) :
    copyLoop rounds src = src.take (readTotal rounds) := by
  induction rounds generalizing src with
  | nil => exact List.take_zero.symm
  | cons r rounds ih =>
    rw [List.forall_mem_cons] at h
    have hw : r.written = r.nReadCount := by
      rw [Round.written, h.1, Option.getD_some]
    have htotal : readTotal (r :: rounds) = r.nReadCount + readTotal rounds := List.sum_cons
    rw [copyLoop, hw, List.take_take, Nat.min_self, ih h.2, htotal, List.take_add]

theorem writtenTotal_le {rounds : List Round} {fd : Bool} (h : ∀ r ∈ rounds, r.Possible fd) :
    writtenTotal rounds ≤ readTotal rounds :=
  List.sum_le_sum fun r hr => (h r hr).written_le

/-- The totals agree when no `write` falls short. -/
theorem full_of_writtenTotal_eq {rounds : List Round} {fd : Bool}
    (h : ∀ r ∈ rounds, r.Possible fd) (heq : writtenTotal rounds = readTotal rounds) :
    ∀ r ∈ rounds, r.Full := by
  induction rounds with
  | nil => exact fun r hr => absurd hr List.not_mem_nil
  | cons r rounds ih =>
    rw [List.forall_mem_cons] at h ⊢
    have hread : readTotal (r :: rounds) = r.nReadCount + readTotal rounds := List.sum_cons
    have hwrite : writtenTotal (r :: rounds) = r.written + writtenTotal rounds := List.sum_cons
    have hle := writtenTotal_le h.2
    have hw := h.1.written_le
    exact ⟨h.1.full_iff.mpr (by omega), ih h.2 (by omega)⟩

theorem srcAfterOpen_isPrefix (d : Dest) (src : List UInt8) (opened : Bool) :
    d.srcAfterOpen src opened <+: src := by
  cases d with
  | source =>
    cases opened with
    | true => exact List.nil_prefix
    | false => exact List.prefix_rfl
  | other => exact List.prefix_rfl

/-- The loop leaves a copy when every `write` is full and `read` has come to the end, and in no
other way.  `cur` is what is left of the source once the destination has been truncated. -/
theorem copyLoop_eq_iff {rounds : List Round} {fd : Bool} (h : ∀ r ∈ rounds, r.Possible fd)
    {cur src : List UInt8} (hcur : cur <+: src) (hlen : readTotal rounds ≤ cur.length) :
    copyLoop rounds cur = src ↔ (∀ r ∈ rounds, r.Full) ∧ readTotal rounds = src.length := by
  have hcurlen := hcur.length_le
  constructor
  · intro hcopy
    have hlength := length_copyLoop h hlen
    rw [hcopy] at hlength
    have hle := writtenTotal_le h
    exact ⟨full_of_writtenTotal_eq h (by omega), by omega⟩
  · rintro ⟨hfull, htotal⟩
    obtain rfl := hcur.eq_of_length (by omega)
    rw [copyLoop_full hfull, htotal, List.take_length]

/-! ## Faithful or not -/

/-- A program that ends with status `0` has copied the file. -/
def Faithful (e : End) (src : List UInt8) : Prop := e.status = 0 → e.dest = some src

/-- **The copy is faithful exactly when the program fails, when every `write` was full and the
whole source was read, or when the destination could not be opened and was a copy before.** -/
theorem copy_faithful_iff (c : Calls) (src : List UInt8) (hpossible : Possible c src) :
    Faithful (main c src) src ↔
      c.argc < 3 ∨ c.openSrc = false ∨
      (c.openDest = true ∧ (∀ r ∈ c.rounds, r.Full) ∧ readTotal c.rounds = src.length) ∨
      (c.openDest = false ∧ c.dest.before src = some src) := by
  have hread := hpossible.read_le
  unfold Faithful main
  by_cases hargc : c.argc < 3
  · simp [hargc]
  cases hsrc : c.openSrc with
  | false => simp [hargc]
  | true =>
    cases hdest : c.openDest with
    | false => simp [hargc]
    | true =>
      rw [hdest] at hread
      have hiff := copyLoop_eq_iff hpossible.rounds (srcAfterOpen_isPrefix c.dest src true) hread
      simpa [hargc] using hiff

/-- A file of three bytes, copied in two turns. -/
def twoTurns : Calls where
  argc := 3
  dest := .other none
  openSrc := true
  openDest := true
  rounds := [⟨2, some 2⟩, ⟨1, some 1⟩]
  last := .eof

theorem possible_twoTurns : Possible twoTurns [1, 2, 3] where
  rounds := by
    intro r hr
    rcases List.mem_pair.mp hr with rfl | rfl
    all_goals exact ⟨by decide, by decide, by simp, by simp, fun h => absurd h (by decide)⟩
  read_le := by decide
  eof := by decide

theorem twoTurns_faithful : (main twoTurns [1, 2, 3]).status = 0 ∧
    Faithful (main twoTurns [1, 2, 3]) [1, 2, 3] := by
  refine ⟨rfl, (copy_faithful_iff twoTurns [1, 2, 3] possible_twoTurns).mpr ?_⟩
  exact .inr (.inr (.inl ⟨rfl, by decide, rfl⟩))

/-- The file system is full: the second `write` fails, and the program returns `0`. -/
theorem failed_write_copies_part :
    ¬ ∀ (c : Calls) (src : List UInt8), Possible c src → Faithful (main c src) src := by
  intro hclaim
  have hpossible : Possible { twoTurns with rounds := [⟨2, some 2⟩, ⟨1, none⟩] } [1, 2, 3] := by
    refine ⟨?_, by decide, by decide⟩
    intro r hr
    rcases List.mem_pair.mp hr with rfl | rfl
    all_goals exact ⟨by decide, by decide, by simp, by simp, fun h => absurd h (by decide)⟩
  have hdest := hclaim _ _ hpossible rfl
  exact absurd hdest (by decide)

end LinuxExercise.Files.CopyFile
