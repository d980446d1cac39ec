import LinuxExercise.Framework.SlotTable

/-!
# What the three echo servers share (`012_network_IO/01select`, `02poll`, `03epoll`)

The servers differ in how they wait; the code that serves one client is the same: clear `buf`,
read at most `MAXLINE` bytes into it, upper-case the first `n` bytes and write `n` bytes back.
A `ReadResult` is what a call of `read` returns, with the bytes it stores; a `Call` is one of
the system calls of a server.  The client tables are tables of descriptors with the largest
index in use in `maxi`; `lists_accept` is what entering a new connection does to one.
-/

namespace LinuxExercise.Servers

open SlotTable

/-- `MAXLINE`. -/
def maxLine : ℕ := 80

/-- The values of `errno` after a failed `read` that the servers tell apart. -/
inductive Errno
  | econnreset
  /-- What a `read` on a listening socket fails with. -/
  | enotconn
  | other
  deriving DecidableEq, Repr

/-- The outcome of `read(fd, buf, MAXLINE)`. -/
inductive ReadResult
  /-- At least one byte. -/
  | data (bytes : List UInt8)
  | eof
  | error (errno : Errno)
  deriving DecidableEq, Repr

/-- The value `read` returns. -/
def ReadResult.n : ReadResult → ℤ
  | .data bytes => bytes.length
  | .eof => 0
  | .error _ => -1

/-- `buf`, cleared by `bzero` and filled by `read`. -/
def ReadResult.buf : ReadResult → List UInt8
  | .data bytes => (bytes ++ List.replicate maxLine 0).take maxLine
  | _ => List.replicate maxLine 0

/-- What a call of `read` on a connection may return: `n` is `0`, `-1` or from `1` to
`MAXLINE`. -/
def ReadResult.Valid : ReadResult → Prop
  | .data bytes => 0 < bytes.length ∧ bytes.length ≤ maxLine
  | _ => True

/-- `toupper` of the `C` locale. -/
def toupper (c : UInt8) : UInt8 := if 97 ≤ c ∧ c ≤ 122 then c - 32 else c

/-- `for (j = 0; j < n; j++) buf[j] = toupper(buf[j])`. -/
def upperLoop (n : ℤ) (buf : List UInt8) : List UInt8 :=
  (buf.take n.toNat).map toupper ++ buf.drop n.toNat

/-- The conversion of an `ssize_t` to `size_t`. -/
def sizeT (n : ℤ) : ℕ := (n % 2 ^ 64).toNat

/-- A system call of a server. -/
inductive Call
  | accept
  | read (fd : ℤ)
  | write (fd : ℤ) (buf : List UInt8) (count : ℕ)
  | close (fd : ℤ)
  deriving DecidableEq, Repr

/-- The descriptors that the calls read from, in order. -/
def readsOf (calls : List Call) : List ℤ :=
  calls.filterMap fun
    | .read fd => some fd
    | _ => none

theorem readsOf_append (cs ds : List Call) : readsOf (cs ++ ds) = readsOf cs ++ readsOf ds :=
  List.filterMap_append

/-- The echo: `write(sockfd, buf, n)` after the loop. -/
def echo (sockfd : ℤ) (r : ReadResult) : Call :=
  .write sockfd (upperLoop r.n r.buf) (sizeT r.n)

/-- `read` returns `0` at the end of file only. -/
theorem data_n_ne_zero {bytes : List UInt8} (hvalid : (ReadResult.data bytes).Valid) :
    (ReadResult.data bytes).n ≠ 0 := by
  have hpos : 0 < bytes.length := hvalid.1
  simp only [ReadResult.n]
  omega

/-- The number of bytes that were read survives the conversion. -/
theorem sizeT_length {bytes : List UInt8} (hvalid : (ReadResult.data bytes).Valid) :
    sizeT bytes.length = bytes.length := by
  have hlen : bytes.length ≤ maxLine := hvalid.2
  unfold sizeT
  unfold maxLine at hlen
  omega

/-- A cleared buffer into which `bytes` were read. -/
theorem take_padded {bytes : List UInt8} {size : ℕ} (hlen : bytes.length ≤ size) :
    (bytes ++ List.replicate size 0).take size =
      bytes ++ List.replicate (size - bytes.length) 0 := by
  rw [List.take_append, List.take_of_length_le hlen, List.take_replicate,
    Nat.min_eq_left (Nat.sub_le _ _)]

/-- The loop converts the bytes that were read. -/
theorem take_upperLoop (bytes rest : List UInt8) :
    (upperLoop bytes.length (bytes ++ rest)).take bytes.length = bytes.map toupper := by
  rw [upperLoop, Int.toNat_natCast, List.take_left, List.drop_left]
  exact List.take_left' (List.length_map _)

/-- The bytes written are the upper-cased bytes read. -/
theorem echo_data {bytes : List UInt8} (hvalid : (ReadResult.data bytes).Valid) (sockfd : ℤ) :
    ∃ buf count, echo sockfd (.data bytes) = .write sockfd buf count ∧
      buf.take count = bytes.map toupper := by
  refine ⟨_, _, rfl, ?_⟩
  rw [ReadResult.n, sizeT_length hvalid, ReadResult.buf, take_padded hvalid.2]
  exact take_upperLoop bytes _

/-- The slots of a client table are vacant while they hold a negative number. -/
def vacant (fd : ℤ) : Prop := fd < 0

instance : DecidablePred vacant := fun fd => inferInstanceAs (Decidable (fd < 0))

theorem neg_one_le_maxi {maxi : ℤ} (hmaxi : -1 ≤ maxi) (i : ℕ) :
    -1 ≤ if maxi < i then (i : ℤ) else maxi := by
  split <;> omega

/-- A new connection is stored in a free slot, and `maxi` raised to its index if need be. -/
theorem lists_accept {client : ℕ → ℤ} {maxi connfd : ℤ} {fds : Set ℤ}
    (h : Lists vacant client (maxi + 1).toNat fds) (hmaxi : -1 ≤ maxi) {i : ℕ}
    (hi : vacant (client i)) (hpos : 0 ≤ connfd) (hnew : connfd ∉ fds) :
    Lists vacant (Function.update client i connfd)
      ((if maxi < i then (i : ℤ) else maxi) + 1).toNat (insert connfd fds) := by
  apply (h.insert hi (not_lt.mpr hpos) hnew).mono
  split <;> omega

end LinuxExercise.Servers
