import LinuxExercise.Servers.Kernel

/-!
# The upper-casing filter and its wrapper (`004_process/06upper.c`, `06wrapper.c`)

The filter copies `getchar()` to `putchar(toupper(ch))` until `ch` is `EOF`.  The result of
`getchar` is an `int` that tells the 256 bytes and `EOF` apart, but it is stored in a `char`
before it is compared, and a signed `char` has no value to spare: the byte `0xFF` is stored as
`-1`, which is `EOF`.  `filter_processes_iff` says that this is the only byte that is lost.

The wrapper opens a file, makes it the standard input and runs the filter in its own place.
-/

namespace LinuxExercise.Files.Upper

open Servers (toupper)

/-! ## The filter -/

/-- `EOF`. -/
def eof : ℤ := -1

/-- The value of `getchar()` on a stream: the next byte as an `unsigned char`. -/
def getchar : List UInt8 → ℤ
  | [] => eof
  | b :: _ => b.toNat

/-- The conversion of an `int` to a signed `char`, `char ch = c`. -/
def toChar (c : ℤ) : Int8 := .ofInt c

/-- `toupper` of an `int`, in the `C` locale. -/
def toupperInt (c : ℤ) : ℤ := if 97 ≤ c ∧ c ≤ 122 then c - 32 else c

/-- The byte that `putchar(c)` writes: `c` as an `unsigned char`. -/
def putchar (c : ℤ) : UInt8 := .ofNat (c % 256).toNat

/-- What has become of the streams when the filter returns. -/
structure Outcome where
  output : List UInt8
  /-- What is left in the input. -/
  unread : List UInt8
  /-- The last `getchar` found the input empty. -/
  sawEnd : Bool
  deriving DecidableEq, Repr

/-- `main` of `06upper.c`: `while ((ch = getchar()) != EOF) putchar(toupper(ch));`. -/
def upper (input : List UInt8) : Outcome :=
  if (toChar (getchar input)).toInt = eof then
    { output := [], unread := input.tail, sawEnd := input.isEmpty }
  else
    match input with
    -- not taken: the value of `getchar` at the end is `EOF`, and so is `ch`
    | [] => { output := [], unread := [], sawEnd := true }
    | b :: rest =>
      let o := upper rest
      { o with output := putchar (toupperInt (toChar b.toNat).toInt) :: o.output }

/-! ## Conversions -/

/-- A statement about all bytes is one about the numbers below 256. -/
theorem forall_byte {P : UInt8 → Prop} (h : ∀ n < 256, P (.ofNat n)) (b : UInt8) : P b := by
  have hb := h b.toNat b.toNat_lt
  rwa [UInt8.ofNat_toNat] at hb

/-- The one byte that a `char` cannot tell from `EOF`. -/
theorem toChar_eq_eof_iff : ∀ b : UInt8, (toChar b.toNat).toInt = eof ↔ b = 0xFF :=
  forall_byte (by decide +kernel)

/-- The detour through `char` does not change what is written for a byte. -/
theorem putchar_toupperInt :
    ∀ b : UInt8, putchar (toupperInt (toChar b.toNat).toInt) = toupper b :=
  forall_byte (by decide +kernel)

/-! ## The loop -/

theorem upper_nil : upper [] = { output := [], unread := [], sawEnd := true } := by
  rw [upper]
  exact if_pos rfl

/-- The loop ends at a byte `0xFF`. -/
theorem upper_ff (rest : List UInt8) :
    upper (0xFF :: rest) = { output := [], unread := rest, sawEnd := false } := by
  have heof : (toChar (getchar (0xFF :: rest))).toInt = eof := (toChar_eq_eof_iff 0xFF).mpr rfl
  rw [upper, if_pos heof]
  rfl

/-- Any other byte is converted. -/
theorem upper_cons {b : UInt8} (hb : b ≠ 0xFF) (rest : List UInt8) :
    upper (b :: rest) = { upper rest with output := toupper b :: (upper rest).output } := by
  have hne : (toChar (getchar (b :: rest))).toInt ≠ eof :=
    fun h => hb ((toChar_eq_eof_iff b).mp h)
  rw [upper, if_neg hne]
  simp only [putchar_toupperInt]

/-- The bytes in front of the first `0xFF` are converted one by one. -/
theorem upper_append {before : List UInt8} (hbefore : 0xFF ∉ before) (rest : List UInt8) :
    upper (before ++ rest) =
      { upper rest with output := before.map toupper ++ (upper rest).output } := by
  induction before with
  | nil => rfl
  | cons b before ih =>
    obtain ⟨hb, hmem⟩ := not_or.mp (mt List.mem_cons.mpr hbefore)
    rw [List.cons_append, upper_cons (Ne.symm hb), ih hmem]
    rfl

/-! ## What the filter is for -/

/-- Each byte of the input has been converted, in order, and the filter has come to the end. -/
structure Processes (o : Outcome) (input : List UInt8) : Prop where
  output : o.output = input.map toupper
  unread : o.unread = []
  sawEnd : o.sawEnd = true

theorem processes_of_notMem {input : List UInt8} (h : 0xFF ∉ input) :
    Processes (upper input) input := by
  have hupper := upper_append h []
  rw [List.append_nil, upper_nil] at hupper
  rw [hupper]
  exact ⟨List.append_nil _, rfl, rfl⟩

/-- Where the input has a byte `0xFF` the filter does not see the end. -/
theorem sawEnd_of_mem {input : List UInt8} (h : 0xFF ∈ input) : (upper input).sawEnd = false := by
  induction input with
  | nil => cases h
  | cons b rest ih =>
    by_cases hb : b = 0xFF
    · rw [hb, upper_ff]
    · rw [upper_cons hb]
      exact ih ((List.mem_cons.mp h).resolve_left (Ne.symm hb))

/-! ## The wrapper -/

/-- How the wrapper ends. -/
inductive Exit
  /-- `exit(-1)`: no file is named. -/
  | usage
  /-- `exit(-2)`: the file cannot be opened. -/
  | openFailed
  /-- The wrapper has become the filter. -/
  | filtered (o : Outcome)
  /-- `execl` has failed: `putchar(getchar())` and `return 0`. -/
  | copied (c : UInt8)
  deriving DecidableEq, Repr

/-- `main` of `06wrapper.c`.  `file` is the content of the file `argv[1]`, if it can be opened;
after `dup2(fd, STDIN_FILENO)` it is what `getchar` reads. -/
def wrapper (argc : ℕ) (file : Option (List UInt8)) (execOk : Bool) : Exit :=
  if argc < 2 then .usage
  else
    match file with
    | none => .openFailed
    | some stdin =>
      if execOk then .filtered (upper stdin)
      -- `dup2(STDIN_FILENO, save_fd)` has its arguments the wrong way round
      else .copied (putchar (getchar stdin))

/-- **The filter and the wrapper process the whole input exactly when it has no byte `0xFF`.** -/
theorem filter_processes_iff (input : List UInt8) :
    (Processes (upper input) input ∧
      ∀ argc, 2 ≤ argc → ∃ o, wrapper argc (some input) true = .filtered o ∧ Processes o input) ↔
      0xFF ∉ input := by
  constructor
  · rintro ⟨h, -⟩ hmem
    have hend := h.sawEnd
    rw [sawEnd_of_mem hmem] at hend
    cases hend
  · intro h
    refine ⟨processes_of_notMem h, fun argc hargc => ⟨upper input, ?_, processes_of_notMem h⟩⟩
    exact if_neg (not_lt.mpr hargc)

/-- The filter stops in the middle of three bytes. -/
theorem upper_stops_at_ff : ¬ ∀ input, Processes (upper input) input ∧
    ∀ argc, 2 ≤ argc → ∃ o, wrapper argc (some input) true = .filtered o ∧ Processes o input := by
  intro hclaim
  have hunread := (hclaim [97, 0xFF, 98]).1.unread
  have hleft : (upper [97, 0xFF, 98]).unread = [98] := by
    rw [upper_cons (by decide), upper_ff]
  rw [hleft] at hunread
  cases hunread

end LinuxExercise.Files.Upper
