import LinuxExercise.Framework.Memory
import LinuxExercise.Servers.Kernel

/-!
# The UDP server (`011network/02UDP/src/01server.c`)

The server receives a datagram, upper-cases it in place, stores a newline at the index that
`recvfrom` returned and sends that many bytes and one more.  It passes the whole size of the
buffer to `recvfrom`, so that a datagram of `BUF_SIZE` bytes leaves no room for the newline, and
it does not look at the result, so that `-1` is used as an index.

`bounds_and_reply_iff` says that these are the only outcomes for which it leaves the buffer.
-/

namespace LinuxExercise.Network

open Memory Servers

/-- The variables of the UDP server: its buffer, with the memory around it, and the address of the
client, of a type `α`. -/
structure Udp (α : Type*) where
  readBuf : ℤ → UInt8
  clientaddr : α
  /-- History: the indices of `readBuf` that were read or written, in order. -/
  accesses : List ℤ
  /-- History: the addresses and bytes passed to `sendto`. -/
  sent : List (α × List UInt8)

namespace Udp

variable {α : Type*}

/-- `BUF_SIZE`. -/
def bufSize : ℕ := 1024

/-- `'\n'`. -/
def newline : UInt8 := 10

/-- The outcome of `recvfrom`: a datagram has arrived from a client, or it fails. -/
inductive Outcome (α : Type*)
  | datagram (client : α) (payload : List UInt8)
  | error

/-- The bytes stored: of a longer datagram the kernel drops what does not fit. -/
def Outcome.received : Outcome α → List UInt8
  | .datagram _ payload => payload.take bufSize
  | .error => []

/-- The value `recvfrom` returns. -/
def Outcome.readlen : Outcome α → ℤ
  | .datagram _ payload => (payload.take bufSize).length
  | .error => -1

/-- The address that `recvfrom` leaves in `clientaddr`. -/
def Outcome.clientaddr (old : α) : Outcome α → α
  | .datagram client _ => client
  | .error => old

/-- Lines 41-45, for the `n` indices from `i` on. -/
def upperLoop : ℕ → ℤ → Udp α → Udp α
  | 0, _, s => s
  | n + 1, i, s =>
    upperLoop n (i + 1)
      { s with
        readBuf := Function.update s.readBuf i (toupper (s.readBuf i))
        accesses := s.accesses ++ [i, i] }

/-- Lines 31-48: one iteration of the loop. -/
def serve (o : Outcome α) (s : Udp α) : Udp α :=
  -- `bzero(readBuf,sizeof(readBuf))` and `recvfrom`
  let s := { s with
    readBuf := fill o.received (fill (List.replicate bufSize 0) s.readBuf)
    clientaddr := o.clientaddr s.clientaddr }
  let s := upperLoop o.readlen.toNat 0 s
  let s := { s with
    readBuf := Function.update s.readBuf o.readlen newline
    accesses := s.accesses ++ [o.readlen] }
  { s with sent := s.sent ++ [(s.clientaddr, load s.readBuf (sizeT (o.readlen + 1)))] }

/-- The state at line 30, with whatever the memory holds. -/
def start (readBuf : ℤ → UInt8) (clientaddr : α) : Udp α := ⟨readBuf, clientaddr, [], []⟩

/-- The loop, for as many iterations as there are outcomes. -/
def loop (os : List (Outcome α)) (s : Udp α) : Udp α := os.foldl (fun s o => serve o s) s

/-! ## One iteration -/

/-- The indices the conversion loop uses, each twice. -/
def loopAccesses (n : ℕ) (i : ℤ) : List ℤ := (List.range n).flatMap fun k : ℕ => [i + k, i + k]

theorem loopAccesses_succ (n : ℕ) (i : ℤ) :
    loopAccesses (n + 1) i = [i, i] ++ loopAccesses n (i + 1) := by
  rw [loopAccesses, List.range_succ_eq_map, List.flatMap_cons, List.flatMap_map]
  refine congrArg₂ _ (by simp) (List.flatMap_congr fun k _ => ?_)
  rw [Nat.cast_succ, add_assoc, add_comm (1 : ℤ)]

theorem mem_loopAccesses {n : ℕ} {j : ℤ} : j ∈ loopAccesses n 0 ↔ 0 ≤ j ∧ j < n := by
  rw [loopAccesses, List.mem_flatMap]
  constructor
  · rintro ⟨k, hk, hj⟩
    have hlt := List.mem_range.mp hk
    have hjk : j = k := by simpa using hj
    omega
  · rintro ⟨hpos, hlt⟩
    exact ⟨j.toNat, List.mem_range.mpr (by omega), by simp [hpos]⟩

theorem upperLoop_eq (n : ℕ) (i : ℤ) (s : Udp α) :
    upperLoop n i s =
      { s with
        readBuf := mapFrom toupper n i s.readBuf
        accesses := s.accesses ++ loopAccesses n i } := by
  induction n generalizing i s with
  | zero => simp [upperLoop, mapFrom, loopAccesses]
  | succ n ih => rw [upperLoop, ih, mapFrom, loopAccesses_succ, List.append_assoc]

/-- An iteration goes over the bytes received and one index more. -/
theorem serve_accesses (o : Outcome α) (s : Udp α) :
    (serve o s).accesses = s.accesses ++ (loopAccesses o.readlen.toNat 0 ++ [o.readlen]) := by
  simp only [serve, upperLoop_eq, List.append_assoc]

/-- The reply to a datagram: what was received of it in upper case, and a newline. -/
def reply (payload : List UInt8) : List UInt8 :=
  (payload.take bufSize).map toupper ++ [newline]

theorem serve_sent (client : α) (payload : List UInt8) (s : Udp α) :
    (serve (.datagram client payload) s).sent = s.sent ++ [(client, reply payload)] := by
  have hlen : (payload.take bufSize).length ≤ bufSize := List.length_take_le _ _
  have hn : (Outcome.datagram client payload).readlen = (payload.take bufSize).length := rfl
  have hreceived : (Outcome.datagram client payload).received = payload.take bufSize := rfl
  have hsize : sizeT ((Outcome.datagram client payload).readlen + 1) =
      (payload.take bufSize).length + 1 := by
    rw [hn, sizeT]
    unfold bufSize at hlen ⊢
    omega
  simp only [serve, upperLoop_eq, hsize]
  rw [hn, load_update, Int.toNat_natCast, load_mapFrom, hreceived, load_fill]
  rfl

/-! ## The loop -/

/-- What was sent after an outcome answers the datagram, if one has arrived. -/
def Answers (o : Outcome α) (sent : α × List UInt8) : Prop :=
  ∀ client payload, o = .datagram client payload → sent = (client, reply payload)

/-- Every index used is one of `readBuf`, and every datagram is answered, by the reply to it. -/
structure Echoes (os : List (Outcome α)) (s : Udp α) : Prop where
  bounds : ∀ i ∈ s.accesses, 0 ≤ i ∧ i < bufSize
  replies : List.Forall₂ Answers os s.sent

theorem loop_snoc (os : List (Outcome α)) (o : Outcome α) (s : Udp α) :
    loop (os ++ [o]) s = serve o (loop os s) := by
  rw [loop, List.foldl_append]
  rfl

/-- The indices used are those of the iterations. -/
theorem mem_loop_accesses {readBuf : ℤ → UInt8} {clientaddr : α} {os : List (Outcome α)} {i : ℤ} :
    i ∈ (loop os (start readBuf clientaddr)).accesses ↔
      ∃ o ∈ os, 0 ≤ i ∧ i < o.readlen ∨ i = o.readlen := by
  induction os using List.reverseRecOn with
  | nil => simp [loop, start]
  | append_singleton os o ih =>
    rw [loop_snoc, serve_accesses, List.mem_append, ih, List.mem_append, mem_loopAccesses,
      List.mem_singleton]
    simp only [List.mem_append, List.mem_singleton, or_and_right, exists_or, exists_eq_left]
    refine or_congr_right (or_congr_left ?_)
    omega

theorem loop_replies (readBuf : ℤ → UInt8) (clientaddr : α) (os : List (Outcome α)) :
    List.Forall₂ Answers os (loop os (start readBuf clientaddr)).sent := by
  induction os using List.reverseRecOn with
  | nil => exact .nil
  | append_singleton os o ih =>
    rw [loop_snoc]
    cases o with
    | datagram client payload =>
      rw [serve_sent]
      refine List.rel_append ih (.cons (fun client' payload' heq => ?_) .nil)
      obtain ⟨rfl, rfl⟩ := Outcome.datagram.inj heq
      rfl
    | error =>
      exact List.rel_append ih (.cons (fun client payload heq => by cases heq) .nil)

/-- The newline has its place in the buffer. -/
theorem short_iff (o : Outcome α) : 0 ≤ o.readlen ∧ o.readlen < bufSize ↔
    ∃ client payload, o = .datagram client payload ∧ payload.length < bufSize := by
  cases o with
  | datagram client payload =>
    have hlen : (Outcome.datagram client payload).readlen = min bufSize payload.length := by
      rw [Outcome.readlen, List.length_take, Nat.cast_min]
    rw [hlen]
    constructor
    · rintro ⟨-, hlt⟩
      exact ⟨client, payload, rfl, by omega⟩
    · rintro ⟨client', payload', heq, hlt⟩
      obtain ⟨rfl, rfl⟩ := Outcome.datagram.inj heq
      omega
  | error =>
    refine iff_of_false (fun h => ?_) ?_
    · exact absurd h.1 (by simp [Outcome.readlen])
    · rintro ⟨client, payload, heq, -⟩
      cases heq

/-- **The server stays inside its buffer and answers every datagram**, if and only if every
datagram that arrives is shorter than the buffer and `recvfrom` does not fail. -/
theorem bounds_and_reply_iff (readBuf : ℤ → UInt8) (clientaddr : α) (os : List (Outcome α)) :
    Echoes os (loop os (start readBuf clientaddr)) ↔
      ∀ o ∈ os, ∃ client payload, o = .datagram client payload ∧ payload.length < bufSize := by
  have hbounds : (∀ i ∈ (loop os (start readBuf clientaddr)).accesses, 0 ≤ i ∧ i < bufSize) ↔
      ∀ o ∈ os, 0 ≤ o.readlen ∧ o.readlen < bufSize := by
    simp only [mem_loop_accesses]
    constructor
    · intro hin o ho
      exact hin _ ⟨o, ho, .inr rfl⟩
    · rintro hlen i ⟨o, ho, hi⟩
      have := hlen o ho
      omega
  constructor
  · intro hechoes o ho
    exact (short_iff o).1 (hbounds.1 hechoes.bounds o ho)
  · intro hshort
    exact ⟨hbounds.2 fun o ho => (short_iff o).2 (hshort o ho), loop_replies readBuf clientaddr os⟩

/-- A datagram of `BUF_SIZE` bytes arrives. -/
theorem newline_past_buffer : ¬ ∀ (readBuf : ℤ → UInt8) (clientaddr : ℕ) (os : List (Outcome ℕ)),
    (∀ client payload, .datagram client payload ∈ os → payload.length ≤ 65507) →
      Echoes os (loop os (start readBuf clientaddr)) := by
  intro hclaim
  let payload : List UInt8 := List.replicate bufSize 97
  have hlen : (Outcome.datagram 0 payload).readlen = bufSize := by
    simp [Outcome.readlen, payload]
  have hechoes := hclaim (fun _ => 0) 0 [.datagram 0 payload] fun client payload' hmem => by
    obtain ⟨-, rfl⟩ := Outcome.datagram.inj (List.mem_singleton.mp hmem)
    rw [List.length_replicate]
    decide
  have hmem : (bufSize : ℤ) ∈ (loop [.datagram 0 payload] (start (fun _ => 0) 0)).accesses :=
    mem_loop_accesses.mpr ⟨_, List.mem_singleton_self _, .inr hlen.symm⟩
  exact lt_irrefl _ (hechoes.bounds _ hmem).2

end Udp

end LinuxExercise.Network
