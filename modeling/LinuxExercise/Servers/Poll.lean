import LinuxExercise.Framework.SlotTable
import LinuxExercise.Framework.System
import LinuxExercise.Servers.Kernel

/-!
# The `poll` server (`012_network_IO/02poll/server.c`)

One iteration of the loop is a `round`, as for the `select` server.  Here the listening socket
is itself an entry of the table, `client[0]`, and the scan starts at `0`: it is scanned like a
client.  So a round that reports the listening socket together with a client reads from the
listening socket, which fails and ends the server; `round_serves_iff` says that these rounds,
and those that report an error on the listening socket, are the only ones that go wrong.

The `events` and `revents` fields are not initialised, and `poll` fills in `revents` only up to
`maxi`; what the other entries hold is part of the initial state.
-/

namespace LinuxExercise.Servers

open SlotTable

/-- `MAX_OPEN_FILE_NUM` of the `poll` server. -/
def maxOpenFileNum : ℕ := 1024

/-- `struct pollfd`. -/
structure PollFd where
  fd : ℤ
  events : BitVec 16
  revents : BitVec 16

/-- `POLLIN`. -/
def pollIn : BitVec 16 := 0x1

/-- `POLLERR`. -/
def pollErr : BitVec 16 := 0x8

/-! ## The server -/

/-- The variables of `main`, and which connections are open. -/
structure Poll where
  client : ℕ → PollFd
  maxi : ℤ
  listenfd : ℤ
  /-- History: the descriptors accepted and not closed since. -/
  connections : Finset ℤ
  /-- The status with which the server has exited. -/
  exited : Option ℤ

namespace Poll

/-- What the kernel does in a round: the results of `poll`, of `accept` and of the `read` on
each entry's descriptor. -/
structure Round where
  nready : ℤ
  revents : ℕ → BitVec 16
  connfd : ℤ
  read : ℕ → ReadResult

/-- The initialisation of lines 23-43; `memory` is what the array contained before. -/
def start (listenfd : ℕ) (memory : ℕ → PollFd) : Poll where
  client i := if i = 0 then ⟨listenfd, pollIn, (memory 0).revents⟩ else { memory i with fd := -1 }
  maxi := 0
  listenfd := listenfd
  connections := ∅
  exited := none

/-- `poll(client, maxi + 1, -1)`: the first `maxi + 1` entries get their `revents`. -/
def poll (revents : ℕ → BitVec 16) (s : Poll) : Poll :=
  { s with client := fun i =>
      if (i : ℤ) ≤ s.maxi then { s.client i with revents := revents i } else s.client i }

/-- Lines 54-73: `accept` and the first free entry. -/
def acceptClient (connfd : ℤ) (s : Poll) : Poll :=
  let connections := if connfd < 0 then s.connections else insert connfd s.connections
  let i := firstVacant (fun p => vacant p.fd) s.client maxOpenFileNum 0
  if i = maxOpenFileNum then { s with connections := connections, exited := some (-2) }
  else
    { s with
      client := Function.update s.client i { s.client i with fd := connfd, events := pollIn }
      maxi := if s.maxi < i then i else s.maxi
      connections := connections }

/-- The tests of lines 80-82. -/
def ready (s : Poll) (i : ℕ) : Bool :=
  decide (¬ (s.client i).fd < 0 ∧ (s.client i).revents &&& (pollIn ||| pollErr) ≠ 0)

/-- What `read` on the descriptor of entry `i` returns: the listening socket is not connected. -/
def readAt (read : ℕ → ReadResult) (s : Poll) (i : ℕ) : ReadResult :=
  if (s.client i).fd = s.listenfd then .error .enotconn else read i

/-- `close(sockfd); client[i].fd = -1`. -/
def closeClient (i : ℕ) (s : Poll) : Poll :=
  { s with
    client := Function.update s.client i { s.client i with fd := -1 }
    connections := s.connections.erase (s.client i).fd }

/-- Lines 83-105: one reported entry. -/
def serveClient (read : ℕ → ReadResult) (i : ℕ) (s : Poll) : Poll × List Call :=
  let sockfd := (s.client i).fd
  match readAt read s i with
  | .eof | .error .econnreset => (closeClient i s, [.read sockfd, .close sockfd])
  | .error _ => ({ s with exited := some (-3) }, [.read sockfd])
  | .data bytes => (s, [.read sockfd, echo sockfd (.data bytes)])

/-- The loop of lines 78-109, with `nready` entries left to handle. -/
def scanClients (read : ℕ → ReadResult) (nready : ℤ) (s : Poll) : Poll × List Call :=
  scan ready (serveClient read) (fun s => s.exited.isSome) (s.maxi + 1).toNat 0 nready s

/-- Lines 47-110: one iteration of the loop, with the calls it makes. -/
def round (r : Round) (s : Poll) : Poll × List Call :=
  if r.nready < 0 then ({ s with exited := some (-1) }, [])
  else
    let s := poll r.revents s
    if (s.client 0).revents &&& pollIn ≠ 0 then
      let s' := acceptClient r.connfd s
      if s'.exited.isSome ∨ r.nready - 1 = 0 then (s', [.accept])
      else
        ((scanClients r.read (r.nready - 1) s').1,
          .accept :: (scanClients r.read (r.nready - 1) s').2)
    else scanClients r.read r.nready s

/-- The runs of the server in an environment `env`, round by round until it exits. -/
def server (env : Poll → Round → Prop) (listenfd : ℕ) (memory : ℕ → PollFd) :
    System Poll Round where
  init s := s = start listenfd memory
  step s r s' := s.exited = none ∧ env s r ∧ (round r s).1 = s'

/-- The entries that `poll` reports. -/
def reported (s : Poll) (r : Round) : List ℕ :=
  (List.range (s.maxi + 1).toNat).filter fun i => decide (r.revents i ≠ 0)

/-- `poll` reports `POLLIN` and `POLLERR` on entries with a descriptor and counts the entries
it reports, `accept` fails or returns a descriptor that is not open. -/
structure Env (s : Poll) (r : Round) : Prop where
  flags : ∀ i, r.revents i = 0 ∨ r.revents i = pollIn ∨ r.revents i = pollErr ∨
    r.revents i = pollIn ||| pollErr
  unset : ∀ i, (s.client i).fd < 0 → r.revents i = 0
  nready : r.nready = (reported s r).length
  accept : r.connfd = -1 ∨ 0 ≤ r.connfd ∧ r.connfd ≠ s.listenfd ∧ r.connfd ∉ s.connections

/-! ## The invariant -/

/-- The entries with a descriptor are the listening socket, in `client[0]`, and the open
connections. -/
structure PollInv (s : Poll) : Prop where
  listening : (s.client 0).fd = s.listenfd
  listenfd : 0 ≤ s.listenfd ∧ s.listenfd ∉ s.connections
  maxi : 0 ≤ s.maxi
  table : Lists vacant (fun i => (s.client i).fd) (s.maxi + 1).toNat
    (insert s.listenfd s.connections)

theorem fd_update (client : ℕ → PollFd) (i : ℕ) (p : PollFd) :
    (fun j => (Function.update client i p j).fd) =
      Function.update (fun j => (client j).fd) i p.fd := by
  funext j
  by_cases hji : j = i
  · rw [hji, Function.update_self, Function.update_self]
  · rw [Function.update_of_ne hji, Function.update_of_ne hji]

theorem start_inv (listenfd : ℕ) (memory : ℕ → PollFd) : PollInv (start listenfd memory) where
  listening := rfl
  listenfd := ⟨Int.natCast_nonneg _, Finset.notMem_empty _⟩
  maxi := le_rfl
  table := by
    have hocc : ∀ i, ¬ vacant ((start listenfd memory).client i).fd → i = 0 := by
      intro i hi
      by_contra hne
      exact hi (by simp [start, hne, vacant])
    refine ⟨fun i j hi hij => ?_, fun i hi => ?_, fun fd => ?_⟩
    · have hj : ¬ vacant ((start listenfd memory).client j).fd := by rwa [← hij]
      rw [hocc i hi, hocc j hj]
    · rw [hocc i hi]
      exact Nat.one_pos
    · simp only [start, Finset.coe_empty, insert_empty_eq, Set.mem_singleton_iff]
      constructor
      · rintro rfl
        exact ⟨not_lt.mpr (Int.natCast_nonneg _), 0, rfl⟩
      · rintro ⟨hfd, i, rfl⟩
        rw [hocc i hfd]
        rfl

theorem poll_client_fd (revents : ℕ → BitVec 16) (s : Poll) (i : ℕ) :
    ((poll revents s).client i).fd = (s.client i).fd := by
  unfold poll
  simp only
  split <;> rfl

theorem PollInv.poll {s : Poll} (h : PollInv s) (revents : ℕ → BitVec 16) :
    PollInv (poll revents s) where
  listening := (poll_client_fd revents s 0).trans h.listening
  listenfd := h.listenfd
  maxi := h.maxi
  table := by
    have hfds : (fun i => ((Poll.poll revents s).client i).fd) = fun i => (s.client i).fd :=
      funext (poll_client_fd revents s)
    rw [hfds]
    exact h.table

/-- The entry of the listening socket is never free. -/
theorem PollInv.ne_zero_of_vacant {s : Poll} (h : PollInv s) {i : ℕ}
    (hi : vacant (s.client i).fd) : i ≠ 0 := by
  rintro rfl
  rw [h.listening] at hi
  exact absurd h.listenfd.1 (not_le.mpr hi)

/-- Unless the table is full, `accept` takes an entry other than `client[0]`. -/
theorem PollInv.acceptClient {s : Poll} (h : PollInv s) {connfd : ℤ}
    (hnew : connfd = -1 ∨ 0 ≤ connfd ∧ connfd ≠ s.listenfd ∧ connfd ∉ s.connections)
    (hroom : firstVacant (fun p : PollFd => vacant p.fd) s.client maxOpenFileNum 0 ≠
      maxOpenFileNum) :
    PollInv (acceptClient connfd s) ∧ (acceptClient connfd s).exited = s.exited ∧
      (acceptClient connfd s).client 0 = s.client 0 := by
  have hslot := vacant_of_found hroom
  have hmaxi := h.maxi
  unfold Poll.acceptClient
  rw [if_neg hroom]
  generalize firstVacant (fun p : PollFd => vacant p.fd) s.client maxOpenFileNum 0 = i at hslot
  have hi := h.ne_zero_of_vacant hslot
  have hzero : Function.update s.client i { s.client i with fd := connfd, events := pollIn } 0 =
      s.client 0 := Function.update_of_ne hi.symm ..
  refine ⟨⟨?_, ?_, ?_, ?_⟩, rfl, hzero⟩
  · exact (congrArg PollFd.fd hzero).trans h.listening
  · refine ⟨h.listenfd.1, ?_⟩
    rcases hnew with rfl | ⟨hpos, hne, -⟩
    · exact h.listenfd.2
    · rw [if_neg (not_lt.mpr hpos), Finset.mem_insert, not_or]
      exact ⟨hne.symm, h.listenfd.2⟩
  · simp only
    split <;> omega
  · simp only [fd_update]
    rcases hnew with rfl | ⟨hpos, hne, hfresh⟩
    · apply (h.table.skip hslot (by simp [vacant])).mono
      split <;> omega
    · have hnot : connfd ∉ insert s.listenfd (s.connections : Set ℤ) := by
        rw [Set.mem_insert_iff, not_or]
        exact ⟨hne, hfresh⟩
      rw [if_neg (not_lt.mpr hpos), Finset.coe_insert, Set.insert_comm]
      exact lists_accept h.table (by omega) hslot hpos hnot

/-- Closing the connection of an entry. -/
theorem PollInv.closeClient {s : Poll} (h : PollInv s) {i : ℕ} (hi : ¬ (s.client i).fd < 0)
    (hne : (s.client i).fd ≠ s.listenfd) : PollInv (closeClient i s) where
  listening := by
    have hi0 : i ≠ 0 := by
      rintro rfl
      exact hne h.listening
    exact (congrArg PollFd.fd (Function.update_of_ne hi0.symm ..)).trans h.listening
  listenfd := ⟨h.listenfd.1, fun hmem => h.listenfd.2 (Finset.mem_of_mem_erase hmem)⟩
  maxi := h.maxi
  table := by
    have htable := h.table.clear (i := i) (e := -1) hi (by simp [vacant])
    simp only [Poll.closeClient, fd_update, Finset.coe_erase]
    rwa [Set.insert_sdiff_singleton_comm hne.symm]

theorem PollInv.serveClient {s : Poll} (h : PollInv s) {read : ℕ → ReadResult} {i : ℕ}
    (hi : ¬ (s.client i).fd < 0) : PollInv (serveClient read i s).1 := by
  have hlisten : (s.client i).fd = s.listenfd → readAt read s i = .error .enotconn :=
    fun heq => if_pos heq
  unfold Poll.serveClient
  simp only
  split
  · next heof => exact h.closeClient hi fun heq => by rw [hlisten heq] at heof; cases heof
  · next hreset => exact h.closeClient hi fun heq => by rw [hlisten heq] at hreset; cases hreset
  · exact ⟨h.listening, h.listenfd, h.maxi, h.table⟩
  · exact h

theorem PollInv.scanClients {s : Poll} (h : PollInv s) (read : ℕ → ReadResult) (nready : ℤ) :
    PollInv (scanClients read nready s).1 :=
  scan_invariant (P := PollInv)
    (fun _ _ hready hs => hs.serveClient (of_decide_eq_true hready).1) _ _ _ h

theorem PollInv.round {s : Poll} (h : PollInv s) {r : Round}
    (hnew : r.connfd = -1 ∨ 0 ≤ r.connfd ∧ r.connfd ≠ s.listenfd ∧ r.connfd ∉ s.connections)
    (hrunning : (round r s).1.exited = none) : PollInv (round r s).1 := by
  have hpoll := h.poll r.revents
  unfold Poll.round at hrunning ⊢
  by_cases hfail : r.nready < 0
  · rw [if_pos hfail] at hrunning
    cases hrunning
  rw [if_neg hfail] at hrunning ⊢
  simp only at hrunning ⊢
  by_cases hin : ((Poll.poll r.revents s).client 0).revents &&& pollIn ≠ 0
  · rw [if_pos hin] at hrunning ⊢
    by_cases hroom : firstVacant (fun p : PollFd => vacant p.fd)
        (Poll.poll r.revents s).client maxOpenFileNum 0 = maxOpenFileNum
    · have hfull : (Poll.acceptClient r.connfd (Poll.poll r.revents s)).exited = some (-2) := by
        rw [Poll.acceptClient, if_pos hroom]
      rw [if_pos (.inl (by rw [hfull]; rfl)), hfull] at hrunning
      cases hrunning
    · obtain ⟨hacc, -⟩ := hpoll.acceptClient hnew hroom
      split
      · exact hacc
      · exact hacc.scanClients r.read _
  · rw [if_neg hin]
    exact hpoll.scanClients r.read _

theorem pollInv_of_run {listenfd : ℕ} {memory : ℕ → PollFd} {h : List (Event Poll Round)}
    {s : Poll} (hrun : (server Env listenfd memory).Run h s) : s.exited = none → PollInv s := by
  refine hrun.invariant_on (C := fun s => s.exited = none) (I := PollInv) ?_ ?_ ?_
  · intro s r s' hstep _
    exact hstep.1
  · intro s hs _
    rw [hs]
    exact start_inv listenfd memory
  · rintro s r s' - ⟨-, hr, rfl⟩ - hrunning hinv
    exact hinv.round hr.accept hrunning

/-! ## What a round serves -/

/-- Entry `i` is that of a connected client, and `poll` reports it. -/
def Reports (s : Poll) (r : Round) (i : ℕ) : Prop :=
  1 ≤ i ∧ (i : ℤ) ≤ s.maxi ∧ 0 ≤ (s.client i).fd ∧ r.revents i &&& (pollIn ||| pollErr) ≠ 0

/-- No entry is free. -/
def TableFull (s : Poll) : Prop := ∀ i < maxOpenFileNum, 0 ≤ (s.client i).fd

/-- The round accepts once if the listening socket reports `POLLIN`, reads once from each
reported client and from nothing else, and goes back to `poll` unless a read fails otherwise
than with `ECONNRESET` or there is no entry for the new connection. -/
structure Serves (s : Poll) (r : Round) : Prop where
  accepts : (round r s).2.count .accept = if r.revents 0 &&& pollIn ≠ 0 then 1 else 0
  reads_reported : ∀ fd ∈ readsOf (round r s).2, ∃ i, Reports s r i ∧ (s.client i).fd = fd
  reads_once : (readsOf (round r s).2).Nodup
  reads_no_listening : s.listenfd ∉ readsOf (round r s).2
  complete : ¬ (r.revents 0 &&& pollIn ≠ 0 ∧ TableFull s) →
    (∀ i e, Reports s r i → r.read i = .error e → e = .econnreset) →
    (∀ i, Reports s r i → (s.client i).fd ∈ readsOf (round r s).2) ∧
      (round r s).1.exited = none

/-- A flag word that `poll` may report is zero exactly when the scan skips it. -/
theorem Env.revents_eq_zero_iff {s : Poll} {r : Round} (hr : Env s r) (i : ℕ) :
    r.revents i &&& (pollIn ||| pollErr) = 0 ↔ r.revents i = 0 := by
  rcases hr.flags i with h | h | h | h <;> rw [h] <;> decide

/-- An entry is served without closing, exiting or closing only; it reads once and does not
accept. -/
theorem serveClient_calls (read : ℕ → ReadResult) (i : ℕ) (s : Poll) :
    readsOf (serveClient read i s).2 = [(s.client i).fd] ∧
      (serveClient read i s).2.count .accept = 0 := by
  unfold serveClient
  simp only
  split <;> simp [readsOf, echo]

/-- Serving an entry leaves the other entries alone. -/
theorem serveClient_other (read : ℕ → ReadResult) {i j : ℕ} (hij : j ≠ i) (s : Poll) :
    (serveClient read i s).1.client j = s.client j := by
  unfold serveClient
  simp only
  split
  · exact Function.update_of_ne hij ..
  · exact Function.update_of_ne hij ..
  · rfl
  · rfl

theorem serveClient_listenfd (read : ℕ → ReadResult) (i : ℕ) (s : Poll) :
    (serveClient read i s).1.listenfd = s.listenfd := by
  unfold serveClient
  simp only
  split <;> rfl

/-- The server goes on unless the read of a connected client fails otherwise than with
`ECONNRESET`. -/
theorem serveClient_exited {read : ℕ → ReadResult} {i : ℕ} {s : Poll}
    (hne : (s.client i).fd ≠ s.listenfd) (hread : ∀ e, read i = .error e → e = .econnreset) :
    (serveClient read i s).1.exited = s.exited := by
  have hat : readAt read s i = read i := if_neg hne
  unfold serveClient
  simp only
  split
  · rfl
  · rfl
  · next e hreset herr =>
    rw [hat] at herr
    exact absurd (hread e herr) hreset
  · rfl

/-- The calls made for a list of connected entries: the reads are those of the first of them, of
all of them if no read fails fatally. -/
theorem serveAll_calls (read : ℕ → ReadResult) {is : List ℕ} {s : Poll} (hnodup : is.Nodup)
    (hexit : s.exited = none) (hne : ∀ i ∈ is, (s.client i).fd ≠ s.listenfd) :
    readsOf (serveAll (serveClient read) (fun s => s.exited.isSome) is s).2 <+:
        is.map (fun i => (s.client i).fd) ∧
      (serveAll (serveClient read) (fun s => s.exited.isSome) is s).2.count .accept = 0 ∧
      ((∀ i ∈ is, ∀ e, read i = .error e → e = .econnreset) →
        readsOf (serveAll (serveClient read) (fun s => s.exited.isSome) is s).2 =
            is.map (fun i => (s.client i).fd) ∧
          (serveAll (serveClient read) (fun s => s.exited.isSome) is s).1.exited = none) := by
  induction is generalizing s with
  | nil => exact ⟨List.prefix_rfl, rfl, fun _ => ⟨rfl, hexit⟩⟩
  | cons i is ih =>
    obtain ⟨hi, hnodup'⟩ := List.nodup_cons.mp hnodup
    obtain ⟨hreads, haccepts⟩ := serveClient_calls read i s
    unfold serveAll
    by_cases hstop : (serveClient read i s).1.exited.isSome = true
    · rw [if_pos hstop, hreads, haccepts, List.map_cons]
      refine ⟨⟨_, rfl⟩, rfl, fun hok => ?_⟩
      rw [serveClient_exited (hne i List.mem_cons_self) (hok i List.mem_cons_self), hexit] at hstop
      cases hstop
    · rw [if_neg hstop]
      have hsame : ∀ j ∈ is, (serveClient read i s).1.client j = s.client j := by
        intro j hj
        refine serveClient_other read ?_ s
        rintro rfl
        exact hi hj
      have hmap : is.map (fun j => ((serveClient read i s).1.client j).fd) =
          is.map fun j => (s.client j).fd :=
        List.map_congr_left fun j hj => by rw [hsame j hj]
      obtain ⟨hpre, hcount, hok⟩ := ih (s := (serveClient read i s).1) hnodup'
        (by simpa using hstop) fun j hj => by
          rw [hsame j hj, serveClient_listenfd]
          exact hne j (List.mem_cons_of_mem _ hj)
      rw [hmap] at hpre hok
      simp only [readsOf_append, List.count_append, hreads, haccepts, hcount, List.map_cons,
        List.singleton_append]
      refine ⟨(List.prefix_cons_inj _).mpr hpre, trivial, fun hread => ?_⟩
      obtain ⟨hall, hnone⟩ := hok fun j hj => hread j (List.mem_cons_of_mem _ hj)
      exact ⟨by rw [hall], hnone⟩

/-- The entries that the scan serves are those that `poll` reports. -/
theorem readyFrom_poll {s : Poll} {r : Round} (hr : Env s r) :
    readyFrom ready (poll r.revents s) 0 ((poll r.revents s).maxi + 1).toNat = reported s r := by
  rw [readyFrom, reported, ← List.range_eq_range']
  refine List.filter_congr fun i hi => ?_
  have hle : (i : ℤ) ≤ s.maxi := by
    have hlt := List.mem_range.mp hi
    change i < (s.maxi + 1).toNat at hlt
    omega
  have hrev : ((poll r.revents s).client i).revents = r.revents i := by
    simp [poll, hle]
  rw [ready, hrev, poll_client_fd]
  refine decide_eq_decide.mpr ⟨fun h => ?_, fun h => ⟨fun hfd => h (hr.unset i hfd), ?_⟩⟩
  · exact fun h0 => h.2 ((hr.revents_eq_zero_iff i).2 h0)
  · exact fun h0 => h ((hr.revents_eq_zero_iff i).1 h0)

theorem mem_reported {s : Poll} {r : Round} {i : ℕ} :
    i ∈ reported s r ↔ (i : ℤ) ≤ s.maxi ∧ r.revents i ≠ 0 := by
  rw [reported, List.mem_filter, List.mem_range, decide_eq_true_eq]
  refine and_congr_left fun _ => ?_
  omega

/-- A reported entry other than `client[0]` is a client's. -/
theorem Env.reports_iff {s : Poll} {r : Round} (hr : Env s r) {i : ℕ} :
    Reports s r i ↔ i ≠ 0 ∧ i ∈ reported s r := by
  rw [mem_reported, Reports, ne_eq, ne_eq, hr.revents_eq_zero_iff]
  constructor
  · rintro ⟨hi, hle, -, hrev⟩
    exact ⟨by omega, hle, hrev⟩
  · rintro ⟨hi, hle, hrev⟩
    exact ⟨by omega, hle, not_lt.mp fun hfd => hrev (hr.unset i hfd), hrev⟩

theorem poll_revents {s : Poll} (hmaxi : 0 ≤ s.maxi) (revents : ℕ → BitVec 16) :
    ((poll revents s).client 0).revents = revents 0 := by
  simp [poll, hmaxi]

theorem Env.nready_nonneg {s : Poll} {r : Round} (hr : Env s r) : ¬ r.nready < 0 := by
  rw [hr.nready]
  omega

/-- What `round` does when the listening socket reports `POLLIN`. -/
theorem round_accepts {s : Poll} {r : Round} (hmaxi : 0 ≤ s.maxi) (hr : Env s r)
    (hin : r.revents 0 &&& pollIn ≠ 0) :
    round r s =
      if (acceptClient r.connfd (poll r.revents s)).exited.isSome ∨ r.nready - 1 = 0 then
        (acceptClient r.connfd (poll r.revents s), [.accept])
      else
        ((scanClients r.read (r.nready - 1) (acceptClient r.connfd (poll r.revents s))).1,
          .accept ::
            (scanClients r.read (r.nready - 1) (acceptClient r.connfd (poll r.revents s))).2) := by
  unfold round
  rw [if_neg hr.nready_nonneg]
  simp only [poll_revents hmaxi]
  rw [if_pos hin]

/-- What `round` does when it does not. -/
theorem round_scans {s : Poll} {r : Round} (hmaxi : 0 ≤ s.maxi) (hr : Env s r)
    (hin : ¬ r.revents 0 &&& pollIn ≠ 0) :
    round r s = scanClients r.read r.nready (poll r.revents s) := by
  unfold round
  rw [if_neg hr.nready_nonneg]
  simp only [poll_revents hmaxi]
  rw [if_neg hin]

/-- A round with nothing on the listening socket serves the reported entries, in order. -/
theorem round_quiet {s : Poll} {r : Round} (hinv : PollInv s) (hr : Env s r)
    (h0 : r.revents 0 = 0) :
    round r s = serveAll (serveClient r.read) (fun s => s.exited.isSome) (reported s r)
      (poll r.revents s) := by
  have hlater : ∀ (s : Poll) (i j : ℕ), ready s i = true → i < j →
      ready (serveClient r.read i s).1 j = ready s j := by
    intro s i j _ hij
    rw [ready, ready, serveClient_other r.read hij.ne' s]
  have hin : ¬ r.revents 0 &&& pollIn ≠ 0 := by
    rw [h0]
    decide
  rw [round_scans hinv.maxi hr hin, scanClients, scan_eq_serveAll hlater, readyFrom_poll hr]
  rw [readyFrom_poll hr]
  exact hr.nready

theorem serves_quiet {s : Poll} {r : Round} (hinv : PollInv s) (hexit : s.exited = none)
    (hr : Env s r) (h0 : r.revents 0 = 0) : Serves s r := by
  have hclient : ∀ i ∈ reported s r, Reports s r i := by
    intro i hi
    refine hr.reports_iff.mpr ⟨?_, hi⟩
    rintro rfl
    exact (mem_reported.mp hi).2 h0
  have hfds : (reported s r).map (fun i => ((poll r.revents s).client i).fd) =
      (reported s r).map fun i => (s.client i).fd :=
    List.map_congr_left fun i _ => poll_client_fd r.revents s i
  have hnodup : (reported s r).Nodup := List.nodup_range.filter _
  have hne : ∀ i ∈ reported s r, (s.client i).fd ≠ s.listenfd := by
    intro i hi hfd
    have hocc : ¬ vacant (s.client i).fd := not_lt.mpr (hclient i hi).2.2.1
    have hzero := hinv.table.distinct i 0 hocc (hfd.trans hinv.listening.symm)
    have := (hclient i hi).1
    omega
  obtain ⟨hpre, hcount, hok⟩ := serveAll_calls r.read (s := poll r.revents s) hnodup
    hexit fun i hi => by
      rw [poll_client_fd]
      exact hne i hi
  rw [hfds] at hpre hok
  have hmem : ∀ fd ∈ readsOf (round r s).2, ∃ i ∈ reported s r, (s.client i).fd = fd := by
    intro fd hfd
    rw [round_quiet hinv hr h0] at hfd
    exact List.mem_map.mp (hpre.subset hfd)
  refine ⟨?_, fun fd hfd => ?_, ?_, fun hlisten => ?_, fun _ hread => ?_⟩
  · rw [round_quiet hinv hr h0, hcount, h0, if_neg (by simp)]
  · obtain ⟨i, hi, heq⟩ := hmem fd hfd
    exact ⟨i, hclient i hi, heq⟩
  · rw [round_quiet hinv hr h0]
    refine hpre.sublist.nodup (hnodup.map_on fun i hi j _ hij => ?_)
    exact hinv.table.distinct i j (not_lt.mpr (hclient i hi).2.2.1) hij
  · obtain ⟨i, hi, heq⟩ := hmem _ hlisten
    exact hne i hi heq
  · obtain ⟨hall, hnone⟩ := hok fun i hi e he => hread i e (hclient i hi) he
    rw [round_quiet hinv hr h0, hall]
    refine ⟨fun i hi => ?_, hnone⟩
    exact List.mem_map_of_mem (hr.reports_iff.mp hi).2

/-- The listening socket is the only entry reported when no client is. -/
theorem Env.nready_eq_one {s : Poll} {r : Round} (hr : Env s r) (hmaxi : 0 ≤ s.maxi)
    (h0 : r.revents 0 ≠ 0) (hnone : ∀ i, ¬ Reports s r i) : r.nready = 1 := by
  have hperm : (reported s r).Perm [0] := by
    refine (List.perm_ext_iff_of_nodup (List.nodup_range.filter _) (List.nodup_singleton 0)).2
      fun i => ?_
    rw [List.mem_singleton]
    constructor
    · intro hi
      by_contra hne
      exact hnone i (hr.reports_iff.mpr ⟨hne, hi⟩)
    · rintro rfl
      exact mem_reported.mpr ⟨hmaxi, h0⟩
  rw [hr.nready, hperm.length_eq]
  rfl

/-- With a client reported besides the listening socket there is something left to do after
`accept`. -/
theorem Env.two_le_nready {s : Poll} {r : Round} (hr : Env s r) (hmaxi : 0 ≤ s.maxi)
    (h0 : r.revents 0 ≠ 0) {i : ℕ} (hi : Reports s r i) : 2 ≤ r.nready := by
  obtain ⟨hi0, hmem⟩ := hr.reports_iff.mp hi
  have hsub : [0, i].Subperm (reported s r) := by
    refine List.subperm_of_subset (by simp [hi0.symm]) fun j hj => ?_
    rcases List.mem_pair.mp hj with rfl | rfl
    · exact mem_reported.mpr ⟨hmaxi, h0⟩
    · exact hmem
  have hlen := hsub.length_le
  rw [hr.nready]
  exact_mod_cast hlen

theorem tableFull_iff {s : Poll} {revents : ℕ → BitVec 16} :
    firstVacant (fun p : PollFd => vacant p.fd) (poll revents s).client maxOpenFileNum 0 =
      maxOpenFileNum ↔ TableFull s := by
  rw [firstVacant_eq_iff]
  refine forall₂_congr fun i _ => ?_
  rw [poll_client_fd, vacant, not_lt]

theorem serves_accept {s : Poll} {r : Round} (hinv : PollInv s) (hexit : s.exited = none)
    (hr : Env s r) (hin : r.revents 0 &&& pollIn ≠ 0)
    (h : (∀ i, ¬ Reports s r i) ∨ TableFull s) : Serves s r := by
  have h0 : r.revents 0 ≠ 0 := by
    intro h0
    rw [h0] at hin
    exact hin rfl
  have hround : round r s = (acceptClient r.connfd (poll r.revents s), [.accept]) := by
    rw [round_accepts hinv.maxi hr hin, if_pos]
    rcases h with hnone | hfull
    · rw [hr.nready_eq_one hinv.maxi h0 hnone]
      exact .inr rfl
    · rw [acceptClient, if_pos (tableFull_iff.mpr hfull)]
      exact .inl rfl
  refine ⟨?_, ?_, ?_, ?_, fun hroom _ => ?_⟩
  · rw [hround, if_pos hin]
    rfl
  · rw [hround]
    exact fun fd hfd => absurd hfd List.not_mem_nil
  · rw [hround]
    exact List.nodup_nil
  · rw [hround]
    exact List.not_mem_nil
  · have hfull : ¬ TableFull s := fun hfull => hroom ⟨hin, hfull⟩
    refine ⟨fun i hi => absurd hi (h.resolve_right hfull i), ?_⟩
    rw [hround]
    exact ((hinv.poll r.revents).acceptClient hr.accept
      fun heq => hfull (tableFull_iff.mp heq)).2.1.trans hexit

/-- **The slip**: a scan that finds the listening socket reported reads from it, and the
server exits. -/
theorem scanClients_listening {s : Poll} (hinv : PollInv s) (read : ℕ → ReadResult)
    (nready : ℤ) (hready : ready s 0 = true) :
    scanClients read nready s = ({ s with exited := some (-3) }, [.read s.listenfd]) := by
  have hsucc : (s.maxi + 1).toNat = s.maxi.toNat + 1 := by
    have := hinv.maxi
    omega
  have hserve : serveClient read 0 s = ({ s with exited := some (-3) }, [.read s.listenfd]) := by
    rw [serveClient, readAt, if_pos hinv.listening, hinv.listening]
  rw [scanClients, hsucc, scan, if_pos hready, hserve, if_pos]
  rfl

theorem acceptClient_listenfd (connfd : ℤ) (s : Poll) :
    (acceptClient connfd s).listenfd = s.listenfd := by
  unfold acceptClient
  simp only
  split <;> rfl

/-- A round that goes on to the scan with the listening socket reported reads from it. -/
theorem reads_listening {s : Poll} {r : Round} (hinv : PollInv s) (hexit : s.exited = none)
    (hr : Env s r) (h0 : r.revents 0 ≠ 0)
    (h : r.revents 0 &&& pollIn ≠ 0 → (∃ i, Reports s r i) ∧ ¬ TableFull s) :
    s.listenfd ∈ readsOf (round r s).2 := by
  have hpoll := hinv.poll r.revents
  have hscan : ready (poll r.revents s) 0 = true := by
    refine decide_eq_true ⟨?_, ?_⟩
    · rw [hpoll.listening]
      exact not_lt.mpr hpoll.listenfd.1
    · rw [poll_revents hinv.maxi, ne_eq, hr.revents_eq_zero_iff]
      exact h0
  by_cases hin : r.revents 0 &&& pollIn ≠ 0
  · obtain ⟨hreports, hfull⟩ := h hin
    obtain ⟨i, hi⟩ := hreports
    obtain ⟨hacc, hexited, hzero⟩ := hpoll.acceptClient hr.accept
      fun heq => hfull (tableFull_iff.mp heq)
    have htwo := hr.two_le_nready hinv.maxi h0 hi
    have hscan' : ready (acceptClient r.connfd (poll r.revents s)) 0 = true := by
      rwa [ready, hzero]
    have hlisten : (acceptClient r.connfd (poll r.revents s)).listenfd = s.listenfd :=
      acceptClient_listenfd r.connfd _
    rw [round_accepts hinv.maxi hr hin, if_neg, scanClients_listening hacc r.read _ hscan',
      hlisten]
    · exact List.mem_singleton_self _
    · rintro (hexit' | hlast)
      · rw [hexited.trans hexit] at hexit'
        cases hexit'
      · omega
  · rw [round_scans hinv.maxi hr hin, scanClients_listening hpoll r.read _ hscan]
    exact List.mem_singleton_self _

/-- **A round of the `poll` server serves what `poll` reported exactly when nothing is reported
on the listening socket, or a new connection alone, or a new connection for which there is no
entry.** -/
theorem round_serves_iff (listenfd : ℕ) (memory : ℕ → PollFd) (h : List (Event Poll Round))
    (s : Poll) (hrun : (server Env listenfd memory).Run h s) (hback : s.exited = none)
    (r : Round) (hr : Env s r) :
    Serves s r ↔ r.revents 0 = 0 ∨
      r.revents 0 &&& pollIn ≠ 0 ∧ ((∀ i, ¬ Reports s r i) ∨ TableFull s) := by
  have hinv := pollInv_of_run hrun hback
  constructor
  · intro hserves
    by_contra hnot
    rw [not_or] at hnot
    refine hserves.reads_no_listening (reads_listening hinv hback hr hnot.1 fun hin => ?_)
    have hmore := not_or.mp fun hor => hnot.2 ⟨hin, hor⟩
    exact ⟨not_forall_not.mp hmore.1, hmore.2⟩
  · rintro (h0 | ⟨hin, h⟩)
    · exact serves_quiet hinv hback hr h0
    · exact serves_accept hinv hback hr hin h

/-- The round in which the entries `is` report `POLLIN`. -/
def reporting (is : List ℕ) (connfd : ℤ) : Round :=
  ⟨is.length, fun i => if i ∈ is then pollIn else 0, connfd, fun _ => .eof⟩

theorem reporting_env {s : Poll} (is : List ℕ) (connfd : ℤ)
    (hfd : ∀ i ∈ is, 0 ≤ (s.client i).fd)
    (hcount : (reported s (reporting is connfd)).length = is.length)
    (hnew : 0 ≤ connfd ∧ connfd ≠ s.listenfd ∧ connfd ∉ s.connections) :
    Env s (reporting is connfd) where
  flags i := by
    unfold reporting
    simp only
    split
    · exact .inr (.inl rfl)
    · exact .inl rfl
  unset i hi := if_neg fun hmem => not_lt.mpr (hfd i hmem) hi
  nready := congrArg _ hcount.symm
  accept := .inr hnew

/-- What the array contains before the initialisation in the runs below. -/
def zeroMemory : ℕ → PollFd := fun _ => ⟨0, 0, 0⟩

/-- After one connection, the client alone sends end of file. -/
theorem round_serves_eof : ∃ h s, (server Env 3 zeroMemory).Run h s ∧ s.connections = {4} ∧
    Serves s (reporting [1] 5) := by
  have hr₁ : Env (start 3 zeroMemory) (reporting [0] 4) :=
    reporting_env [0] 4 (by decide) (by decide) (by decide)
  have hrun := System.Run.step (M := server Env 3 zeroMemory) (System.Run.start rfl)
    (l := reporting [0] 4) ⟨rfl, hr₁, rfl⟩
  have hr₂ := reporting_env (s := (round (reporting [0] 4) (start 3 zeroMemory)).1) [1] 5
    (by decide) (by decide) (by decide)
  exact ⟨_, _, hrun, by decide,
    (round_serves_iff 3 zeroMemory _ _ hrun (by decide) _ hr₂).mpr (.inl rfl)⟩

/-- After one connection, a second one arrives while the client sends end of file. -/
theorem round_reads_listening : ¬ ∀ (listenfd : ℕ) (memory : ℕ → PollFd)
    (h : List (Event Poll Round)) (s : Poll), (server Env listenfd memory).Run h s →
    s.exited = none → ∀ r, Env s r → Serves s r := by
  intro hall
  have hr₁ : Env (start 3 zeroMemory) (reporting [0] 4) :=
    reporting_env [0] 4 (by decide) (by decide) (by decide)
  have hrun := System.Run.step (M := server Env 3 zeroMemory) (System.Run.start rfl)
    (l := reporting [0] 4) ⟨rfl, hr₁, rfl⟩
  have hr₂ := reporting_env (s := (round (reporting [0] 4) (start 3 zeroMemory)).1) [0, 1] 5
    (by decide) (by decide) (by decide)
  have hserves := hall 3 zeroMemory _ _ hrun (by decide) _ hr₂
  exact hserves.reads_no_listening (by decide)

end Poll

end LinuxExercise.Servers
