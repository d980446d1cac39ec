import LinuxExercise.Framework.CString
import LinuxExercise.Servers.LineClient
import Mathlib.Data.UInt

/-!
# A session over a UNIX-domain socket (`012_network_IO/05unix_socket_domain/src`)

The server (`server.c`, lines 110-129) reads at most 1024 bytes, prints them as a string,
upper-cases them and writes them back.  A `read` that was interrupted is made again and one that
returns `0` ends the session; any other failure is handled like data.  The client (`client.c`,
lines 53-59) writes the lines of its standard input and prints what one `read` returns.

What is printed is the string in `buf`.  The server clears `buf` before each `read`, but fills
all of it; the client does not clear it, so that the string may go on with the line that was sent
or with an earlier reply.
-/

namespace LinuxExercise.Network

open Servers

namespace Unix

/-- The size of `buf`, in the server and in the client. -/
def bufSize : ℕ := 1024

/-- The outcome of `read(fd, buf, 1024)`. -/
inductive Outcome
  /-- `-1`, with `errno` equal to `EINTR`. -/
  | eintr
  /-- Anything else. -/
  | result (r : ReadResult)
  deriving DecidableEq, Repr

/-- The value `read` returns. -/
def Outcome.n : Outcome → ℤ
  | .eintr => -1
  | .result r => r.n

/-- The bytes that `read` has stored. -/
def Outcome.bytes : Outcome → List UInt8
  | .result (.data bytes) => bytes
  | _ => []

/-- `buf` after the `read`. -/
def Outcome.store (buf : List UInt8) : Outcome → List UInt8
  | .eintr => buf
  | .result r => r.store buf

/-- A `read` returns no more than it was asked for. -/
def Outcome.Valid : Outcome → Prop
  | .result (.data bytes) => 0 < bytes.length ∧ bytes.length ≤ bufSize
  | _ => True

theorem Outcome.store_eq (buf : List UInt8) (o : Outcome) :
    o.store buf = o.bytes ++ buf.drop o.bytes.length := by
  cases o with
  | eintr => rfl
  | result r =>
    cases r with
    | data | eof | error => rfl

/-- `read` returns `0` at the end of file only. -/
theorem Outcome.n_eq_zero_iff {o : Outcome} (h : o.Valid) : o.n = 0 ↔ o = .result .eof := by
  cases o with
  | eintr => simp [Outcome.n]
  | result r =>
    cases r with
    | eof => simp [Outcome.n, ReadResult.n]
    | error => simp [Outcome.n, ReadResult.n]
    | data bytes =>
      have hpos := h.1
      simp only [Outcome.n, ReadResult.n, Outcome.result.injEq, reduceCtorEq, iff_false]
      omega

/-! ## The server -/

/-- A call of the server. -/
inductive Op
  /-- `printf("received datas:%s\n",buf)`. -/
  | received (buf : List UInt8)
  /-- `printf("the other side has been closed.\n")`. -/
  | notice
  | write (buf : List UInt8) (count : ℕ)
  | closeCfd
  | closeLfd
  deriving DecidableEq, Repr

/-- One pass through the loop: what `read` returned and the calls up to the next `read`. -/
structure Pass where
  outcome : Outcome
  ops : List Op
  deriving DecidableEq, Repr

/-- Lines 112-126, and 119 and 128-129 where the loop is left. -/
def pass (o : Outcome) : Pass where
  outcome := o
  ops :=
    let buf := o.store (List.replicate bufSize 0)
    -- `if (n == -1) { if (errno == EINTR) goto r_again; }`: no `else` for the other errors
    if o = .eintr then []
    else if o.n = 0 then [.notice, .closeCfd, .closeLfd]
    else [.received buf, .write (upperLoop o.n buf) (sizeT o.n)]

/-- Lines 110-129, with the results of the calls of `read` as input. -/
def serverLoop : List Outcome → List Pass
  | [] => []
  | o :: os => if o.n = 0 then [pass o] else pass o :: serverLoop os

/-- The bytes written to `cfd`; a `write` writes all it is given. -/
def written (ps : List Pass) : List UInt8 :=
  ps.flatMap fun p => p.ops.flatMap fun
    | .write buf count => buf.take count
    | _ => []

/-- The bytes read from `cfd`. -/
def received (ps : List Pass) : List UInt8 := ps.flatMap fun p => p.outcome.bytes

theorem mem_serverLoop {os : List Outcome} (hvalid : ∀ o ∈ os, o.Valid) {o : Outcome}
    (ho : o ∈ os.takeWhile (· ≠ .result .eof)) : pass o ∈ serverLoop os := by
  induction os with
  | nil => cases ho
  | cons o' os ih =>
    rw [List.forall_mem_cons] at hvalid
    by_cases heof : o' = .result .eof
    · rw [List.takeWhile_cons_of_neg (by simp [heof])] at ho
      cases ho
    · rw [List.takeWhile_cons_of_pos (by simp [heof])] at ho
      rw [serverLoop, if_neg (mt (Outcome.n_eq_zero_iff hvalid.1).mp heof)]
      rcases List.mem_cons.mp ho with rfl | hrest
      · exact List.mem_cons_self
      · exact List.mem_cons_of_mem _ (ih hvalid.2 hrest)

theorem eq_pass_of_mem {os : List Outcome} {p : Pass} (hp : p ∈ serverLoop os) :
    ∃ o, p = pass o ∧ (o.n = 0 ∨ o ∈ os.takeWhile (· ≠ .result .eof)) := by
  induction os with
  | nil => cases hp
  | cons o os ih =>
    rw [serverLoop] at hp
    by_cases hn : o.n = 0
    · rw [if_pos hn] at hp
      exact ⟨o, List.mem_singleton.mp hp, .inl hn⟩
    · have hne : o ≠ .result .eof := by
        rintro rfl
        exact hn rfl
      rw [if_neg hn] at hp
      rw [List.takeWhile_cons_of_pos (by simp [hne])]
      rcases List.mem_cons.mp hp with rfl | hrest
      · exact ⟨o, rfl, .inr List.mem_cons_self⟩
      · obtain ⟨o', rfl, ho'⟩ := ih hrest
        exact ⟨o', rfl, ho'.imp_right (List.mem_cons_of_mem _)⟩

/-! ## What a session is -/

/-- The `read`s that are to end the loop. -/
def Outcome.Ends : Outcome → Prop
  | .result .eof | .result (.error _) => True
  | _ => False

instance (o : Outcome) : Decidable o.Ends :=
  match o with
  | .eintr | .result (.data _) => inferInstanceAs (Decidable False)
  | .result .eof | .result (.error _) => inferInstanceAs (Decidable True)

/-- The outcomes up to the first that is to end the loop. -/
def upToEnd : List Outcome → List Outcome
  | [] => []
  | o :: os => if o.Ends then [o] else o :: upToEnd os

def Op.isOutput : Op → Bool
  | .received _ | .notice => true
  | _ => false

/-- One pass: an interrupted `read` has no consequences, a `write` is for the bytes just read, and
the connection and the listening socket are closed at the end and not before. -/
structure PassOk (p : Pass) : Prop where
  retries : p.outcome = .eintr → p.ops = []
  count : ∀ buf (count : ℕ), .write buf count ∈ p.ops → count = p.outcome.n
  goesOn : ¬ p.outcome.Ends → .closeCfd ∉ p.ops ∧ .closeLfd ∉ p.ops
  ends : p.outcome.Ends → (p.ops.filter fun op => !op.isOutput) = [.closeCfd, .closeLfd]

/-- The loop reads up to the first end of file or error, echoes what it has read, and all its
passes are as they should be. -/
structure SessionOk (os : List Outcome) (ps : List Pass) : Prop where
  outcomes : ps.map Pass.outcome = upToEnd os
  echoes : written ps = (received ps).map toupper
  passes : ∀ p ∈ ps, PassOk p

theorem pass_eintr : pass .eintr = ⟨.eintr, []⟩ := rfl

theorem pass_eof : pass (.result .eof) = ⟨.result .eof, [.notice, .closeCfd, .closeLfd]⟩ := rfl

/-- The pass after a `read` that has returned bytes. -/
theorem pass_data {bytes : List UInt8} (hvalid : (Outcome.result (.data bytes)).Valid) :
    ∃ rest, pass (.result (.data bytes)) =
      ⟨.result (.data bytes), [.received (bytes ++ rest),
        .write (upperLoop bytes.length (bytes ++ rest)) bytes.length]⟩ := by
  refine ⟨(List.replicate bufSize 0).drop bytes.length, ?_⟩
  have hpos : 0 < bytes.length := hvalid.1
  have hle : bytes.length ≤ bufSize := hvalid.2
  have hne : Outcome.n (.result (.data bytes)) ≠ 0 := by
    simp only [Outcome.n, ReadResult.n]
    omega
  have hsize : sizeT bytes.length = bytes.length := by
    unfold sizeT
    unfold bufSize at hle
    omega
  rw [pass, if_neg (by simp), if_neg hne]
  simp only [Outcome.n, ReadResult.n, hsize]
  rfl

/-- A pass that is not one after an error is as it should be. -/
theorem passOk_pass {o : Outcome} (hvalid : o.Valid) (hok : ∀ e, o ≠ .result (.error e)) :
    PassOk (pass o) := by
  cases o with
  | eintr =>
    rw [pass_eintr]
    exact ⟨fun _ => rfl, by simp, by simp, False.elim⟩
  | result r =>
    cases r with
    | eof =>
      rw [pass_eof]
      exact ⟨by simp, by simp, fun h => absurd trivial h, fun _ => rfl⟩
    | data bytes =>
      obtain ⟨rest, hpass⟩ := pass_data hvalid
      rw [hpass]
      refine ⟨by simp, fun buf count hmem => ?_, by simp, False.elim⟩
      simp only [List.mem_cons, Op.write.injEq, reduceCtorEq, false_or, List.not_mem_nil,
        or_false] at hmem
      rw [hmem.2]
      rfl
    | error e => exact absurd rfl (hok e)

/-- What such a pass writes. -/
theorem written_pass {o : Outcome} (hvalid : o.Valid) (hok : ∀ e, o ≠ .result (.error e)) :
    written [pass o] = o.bytes.map toupper := by
  cases o with
  | eintr => rfl
  | result r =>
    cases r with
    | eof => rfl
    | data bytes =>
      obtain ⟨rest, hpass⟩ := pass_data hvalid
      rw [hpass]
      simp only [written, List.flatMap_cons, List.flatMap_nil, List.nil_append, List.append_nil]
      exact take_upperLoop bytes rest
    | error e => exact absurd rfl (hok e)

/-- A pass in front of a session. -/
theorem SessionOk.cons {o : Outcome} {os : List Outcome} {ps : List Pass} (h : SessionOk os ps)
    (hvalid : o.Valid) (hends : ¬ o.Ends) : SessionOk (o :: os) (pass o :: ps) := by
  have hok : ∀ e, o ≠ .result (.error e) := by
    rintro e rfl
    exact hends trivial
  refine ⟨?_, ?_, ?_⟩
  · rw [List.map_cons, h.outcomes, upToEnd, if_neg hends]
    rfl
  · have hwritten : written (pass o :: ps) = written [pass o] ++ written ps := by
      simp [written]
    have hreceived : received (pass o :: ps) = o.bytes ++ received ps := rfl
    rw [hwritten, hreceived, written_pass hvalid hok, h.echoes, List.map_append]
  · exact List.forall_mem_cons.mpr ⟨passOk_pass hvalid hok, h.passes⟩

/-- Without an error in front of the end of file the loop is a session. -/
theorem sessionOk_serverLoop {os : List Outcome} (hvalid : ∀ o ∈ os, o.Valid)
    (hok : ∀ e, .result (.error e) ∉ os.takeWhile (· ≠ .result .eof)) :
    SessionOk os (serverLoop os) := by
  induction os with
  | nil => exact ⟨rfl, rfl, fun p hp => absurd hp List.not_mem_nil⟩
  | cons o os ih =>
    rw [List.forall_mem_cons] at hvalid
    by_cases heof : o = .result .eof
    · subst heof
      refine ⟨rfl, rfl, List.forall_mem_singleton.mpr (passOk_pass trivial ?_)⟩
      simp
    · rw [List.takeWhile_cons_of_pos (by simp [heof])] at hok
      have hne : o.n ≠ 0 := mt (Outcome.n_eq_zero_iff hvalid.1).mp heof
      have hends : ¬ o.Ends := by
        cases o with
        | eintr => exact id
        | result r =>
          cases r with
          | data => exact id
          | eof => exact absurd rfl heof
          | error e => exact absurd List.mem_cons_self (hok e)
      rw [serverLoop, if_neg hne]
      exact (ih hvalid.2 fun e he => hok e (List.mem_cons_of_mem _ he)).cons hvalid.1 hends

/-- The pass after a failed `read` does not close the connection. -/
theorem not_passOk_error (e : Errno) : ¬ PassOk (pass (.result (.error e))) := by
  intro hok
  have hends := hok.ends trivial
  simp [pass, Outcome.n, ReadResult.n, Op.isOutput] at hends

/-- **The server's loop is a session exactly when no `read` before the end of file fails with
anything but `EINTR`.** -/
theorem unix_session_iff (os : List Outcome) (hvalid : ∀ o ∈ os, o.Valid) :
    SessionOk os (serverLoop os) ↔
      ∀ e, .result (.error e) ∉ os.takeWhile (· ≠ .result .eof) := by
  refine ⟨fun hok e hmem => ?_, sessionOk_serverLoop hvalid⟩
  exact not_passOk_error e (hok.passes _ (mem_serverLoop hvalid hmem))

/-- An interrupted `read`, two bytes and the end of file. -/
theorem unix_session_two_bytes : SessionOk [.eintr, .result (.data [97, 98]), .result .eof]
    (serverLoop [.eintr, .result (.data [97, 98]), .result .eof]) := by
  refine (unix_session_iff _ ?_).mpr ?_
  · simp [Outcome.Valid, bufSize]
  · simp

/-- The peer resets the connection. -/
theorem reset_is_echoed : ¬ ∀ os : List Outcome, (∀ o ∈ os, o.Valid) →
    SessionOk os (serverLoop os) := by
  intro hclaim
  have hok := hclaim [.result (.error .econnreset)] (by simp [Outcome.Valid])
  have hmem : pass (.result (.error .econnreset)) ∈
      serverLoop [.result (.error .econnreset)] := List.mem_cons_self
  exact not_passOk_error .econnreset (hok.passes _ hmem)

/-! ## What is printed -/

/-- `buf` has a terminator among its 1024 bytes, and the text in front of it is what the `read`
has delivered, or as much of that as precedes a terminator of its own. -/
structure PrintsRead (o : Outcome) (buf : List UInt8) : Prop where
  length : buf.length = bufSize
  text : cstring buf = some (o.bytes.takeWhile (· ≠ 0))

theorem Outcome.bytes_length_le {o : Outcome} (h : o.Valid) : o.bytes.length ≤ bufSize := by
  cases o with
  | eintr => exact Nat.zero_le _
  | result r =>
    cases r with
    | data => exact h.2
    | eof | error => exact Nat.zero_le _

theorem length_store {o : Outcome} (h : o.Valid) {buf : List UInt8} (hbuf : buf.length = bufSize) :
    (o.store buf).length = bufSize := by
  have hle := o.bytes_length_le h
  rw [Outcome.store_eq, List.length_append, List.length_drop]
  omega

/-- What `buf` holds before the `read` decides what is printed after it. -/
theorem printsRead_store_iff {o : Outcome} (h : o.Valid) {buf : List UInt8}
    (hbuf : buf.length = bufSize) :
    PrintsRead o (o.store buf) ↔ 0 ∈ o.bytes ∨ buf[o.bytes.length]? = some 0 := by
  rw [← List.head?_drop, ← cstring_append_eq_iff, ← Outcome.store_eq]
  exact ⟨PrintsRead.text, fun htext => ⟨length_store h hbuf, htext⟩⟩

/-- In the server, which has cleared `buf`, it is the end of the buffer that matters. -/
theorem printsRead_cleared_iff {o : Outcome} (h : o.Valid) :
    PrintsRead o (o.store (List.replicate bufSize 0)) ↔
      0 ∈ o.bytes ∨ o.bytes.length < bufSize := by
  rw [printsRead_store_iff h List.length_replicate, List.getElem?_replicate]
  simp

/-! ## The client -/

/-- One pass through the client's loop. -/
structure ClientPass where
  /-- `write(fd, buf, strlen(buf))`. -/
  sent : List UInt8
  /-- `buf` before the `read`. -/
  before : List UInt8
  outcome : Outcome
  /-- `printf("received datas:%s\n",buf)`. -/
  printed : List UInt8

/-- Lines 53-58, with what `fgets` stores and what `read` returns as input. -/
def clientLoop (buf : List UInt8) : List (List UInt8 × Outcome) → List ClientPass
  | [] => []
  | (line, o) :: rest =>
    -- `fgets` stores the line and a terminator
    let buf := line ++ 0 :: buf.drop (line.length + 1)
    let after := o.store buf
    { sent := buf.take (strlen buf), before := buf, outcome := o, printed := after } ::
      clientLoop after rest

/-- `fgets(buf, sizeof(buf), stdin)` stores at least one byte and leaves room for the
terminator. -/
def FitsLine (line : List UInt8) : Prop := 0 < line.length ∧ line.length < bufSize

/-- What happens to `buf` in a pass. -/
theorem clientLoop_buf {buf : List UInt8} {input : List (List UInt8 × Outcome)}
    (hbuf : buf.length = bufSize) (hvalid : ∀ io ∈ input, FitsLine io.1 ∧ io.2.Valid)
    {p : ClientPass} (hp : p ∈ clientLoop buf input) :
    p.outcome.Valid ∧ p.before.length = bufSize ∧ p.printed = p.outcome.store p.before := by
  induction input generalizing buf with
  | nil => cases hp
  | cons io input ih =>
    obtain ⟨line, o⟩ := io
    obtain ⟨⟨⟨-, hline⟩, ho⟩, hrest⟩ := List.forall_mem_cons.mp hvalid
    have hfgets : (line ++ 0 :: buf.drop (line.length + 1)).length = bufSize := by
      have hlt : line.length < bufSize := hline
      rw [List.length_append, List.length_cons, List.length_drop]
      omega
    rcases List.mem_cons.mp hp with rfl | hmem
    · exact ⟨ho, hfgets, rfl⟩
    · exact ih (length_store ho hfgets) hrest hmem

/-- The printed text is right at each `printf` of the server. -/
def ServerPrints (os : List Outcome) : Prop :=
  ∀ p ∈ serverLoop os, ∀ buf, .received buf ∈ p.ops → PrintsRead p.outcome buf

/-- The printed text is right at each `printf` of the client. -/
def ClientPrints (buf : List UInt8) (input : List (List UInt8 × Outcome)) : Prop :=
  ∀ p ∈ clientLoop buf input, PrintsRead p.outcome p.printed

/-- What a pass of the server prints. -/
theorem received_mem_pass_iff {o : Outcome} {buf : List UInt8} :
    .received buf ∈ (pass o).ops ↔
      o ≠ .eintr ∧ o.n ≠ 0 ∧ buf = o.store (List.replicate bufSize 0) := by
  by_cases hintr : o = .eintr
  · simp [pass, hintr]
  · by_cases hn : o.n = 0
    · simp [pass, hintr, hn]
    · simp [pass, hintr, hn]

theorem serverPrints_iff {os : List Outcome} (hvalid : ∀ o ∈ os, o.Valid) :
    ServerPrints os ↔
      ∀ o ∈ os.takeWhile (· ≠ .result .eof), 0 ∈ o.bytes ∨ o.bytes.length < bufSize := by
  have hmem : ∀ o ∈ os.takeWhile (· ≠ .result .eof), o.Valid := fun o ho =>
    hvalid o ((List.takeWhile_prefix _).subset ho)
  constructor
  · intro hprints o ho
    by_cases hbytes : o.bytes = []
    · exact .inr (by rw [hbytes]; decide)
    · have hintr : o ≠ .eintr := by
        rintro rfl
        exact hbytes rfl
      have hn : o.n ≠ 0 := by
        intro hzero
        rw [Outcome.n_eq_zero_iff (hmem o ho)] at hzero
        subst hzero
        exact hbytes rfl
      exact (printsRead_cleared_iff (hmem o ho)).mp
        (hprints _ (mem_serverLoop hvalid ho) _ (received_mem_pass_iff.mpr ⟨hintr, hn, rfl⟩))
  · intro hends p hp buf hbuf
    obtain ⟨o, rfl, ho⟩ := eq_pass_of_mem hp
    obtain ⟨-, hn, rfl⟩ := received_mem_pass_iff.mp hbuf
    have ho' := ho.resolve_left hn
    exact (printsRead_cleared_iff (hmem o ho')).mpr (hends o ho')

theorem clientPrints_iff {buf : List UInt8} (hbuf : buf.length = bufSize)
    {input : List (List UInt8 × Outcome)}
    (hvalid : ∀ io ∈ input, FitsLine io.1 ∧ io.2.Valid) :
    ClientPrints buf input ↔ ∀ p ∈ clientLoop buf input,
      0 ∈ p.outcome.bytes ∨ p.before[p.outcome.bytes.length]? = some 0 := by
  refine forall₂_congr fun p hp => ?_
  obtain ⟨ho, hbefore, hprinted⟩ := clientLoop_buf hbuf hvalid hp
  rw [hprinted]
  exact printsRead_store_iff ho hbefore

/-- **The text printed is the text read** in the server exactly when no `read` fills `buf` with
bytes other than `0`, and in the client exactly when each `read` delivers a `0` or stops short of
one that was in `buf` before. -/
theorem printed_text_iff (os : List Outcome) (hos : ∀ o ∈ os, o.Valid) (buf : List UInt8)
    (hbuf : buf.length = bufSize) (input : List (List UInt8 × Outcome))
    (hinput : ∀ io ∈ input, FitsLine io.1 ∧ io.2.Valid) :
    (ServerPrints os ↔
      ∀ o ∈ os.takeWhile (· ≠ .result .eof), 0 ∈ o.bytes ∨ o.bytes.length < bufSize) ∧
    (ClientPrints buf input ↔ ∀ p ∈ clientLoop buf input,
      0 ∈ p.outcome.bytes ∨ p.before[p.outcome.bytes.length]? = some 0) :=
  ⟨serverPrints_iff hos, clientPrints_iff hbuf hinput⟩

/-- A line, a shorter one after it, and a full echo of each. -/
theorem printed_text_two_lines :
    ServerPrints [.result (.data [104, 105, 10]), .result (.data [97, 10])] ∧
      ClientPrints (List.replicate bufSize 0)
        [([104, 105, 10], .result (.data [72, 73, 10])), ([97, 10], .result (.data [65, 10]))] := by
  have hiff := printed_text_iff [.result (.data [104, 105, 10]), .result (.data [97, 10])]
    (by simp [Outcome.Valid, bufSize]) (List.replicate bufSize 0) List.length_replicate
    [([104, 105, 10], .result (.data [72, 73, 10])), ([97, 10], .result (.data [65, 10]))]
    (by simp [FitsLine, Outcome.Valid, bufSize])
  refine ⟨hiff.1.mpr ?_, hiff.2.mpr ?_⟩
  · simp [Outcome.bytes, bufSize]
  · simp [clientLoop, Outcome.bytes]

/-- The server is sent 1024 bytes at once, and the client gets the first byte of the echo of its
line and prints the rest of the line after it. -/
theorem prints_past_the_read :
    (¬ ∀ os : List Outcome, (∀ o ∈ os, o.Valid) → ServerPrints os) ∧
      ¬ ∀ (buf : List UInt8) (input : List (List UInt8 × Outcome)), buf.length = bufSize →
        (∀ io ∈ input, FitsLine io.1 ∧ io.2.Valid) → ClientPrints buf input := by
  constructor
  · intro hclaim
    have hvalid : ∀ o ∈ [Outcome.result (.data (List.replicate bufSize 97))], o.Valid := by
      refine List.forall_mem_singleton.mpr ⟨?_, ?_⟩
      · rw [List.length_replicate]
        decide
      · rw [List.length_replicate]
    rcases (serverPrints_iff hvalid).mp (hclaim _ hvalid) _ List.mem_cons_self with hmem | hlt
    · exact absurd (List.eq_of_mem_replicate hmem) (by decide)
    · exact absurd List.length_replicate hlt.ne
  · intro hclaim
    have hbuf : (List.replicate bufSize (0 : UInt8)).length = bufSize := List.length_replicate
    have hvalid : ∀ io ∈ [(([104, 105, 10] : List UInt8), Outcome.result (.data [72]))],
        FitsLine io.1 ∧ io.2.Valid := by
      simp [FitsLine, Outcome.Valid, bufSize]
    have hends := (clientPrints_iff hbuf hvalid).mp (hclaim _ _ hbuf hvalid) _ List.mem_cons_self
    simp [Outcome.bytes] at hends

end Unix

end LinuxExercise.Network
