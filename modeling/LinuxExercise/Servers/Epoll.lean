import LinuxExercise.Framework.SlotTable
import LinuxExercise.Framework.System
import LinuxExercise.Servers.Kernel

/-!
# The `epoll` server (`012_network_IO/03epoll/server.c`)

The kernel keeps the set of watched descriptors, and the server its own table of the clients.
`epoll_wait` returns a batch of events, and one iteration of the loop over the batch is a step:
`i` is the position in the batch, and `client[]` is indexed by `j`.  The branch for
`ECONNRESET` closes `client[i]`, which has nothing to do with the connection that was reset.
As long as that slot is free the `close` fails and no harm is done; `tables_agree_iff` says
that this is exactly the condition under which the table, the interest set and the open
connections agree.
-/

namespace LinuxExercise.Servers

open SlotTable

/-- `EPOLLIN`. -/
def epollIn : BitVec 32 := 0x1

/-- `struct epoll_event`, with `data.fd`. -/
structure EpollEvent where
  events : BitVec 32
  fd : ℤ
  deriving DecidableEq

/-! ## The server -/

/-- The variables of `main`, the interest set of `epollfd` and which connections are open. -/
structure Epoll where
  client : ℕ → ℤ
  maxi : ℤ
  listenfd : ℤ
  epollfd : ℤ
  /-- `epoll_return_client[0 .. nready)`. -/
  events : List EpollEvent
  i : ℕ
  interest : Finset ℤ
  /-- History: the descriptors accepted and not closed since. -/
  connections : Finset ℤ
  /-- History: the calls made. -/
  calls : List Call
  /-- The status with which the server has exited. -/
  exited : Option ℤ

namespace Epoll

/-- `MAX_OPEN_FILE_NUM` of the `epoll` server. -/
def maxOpenFileNum : ℕ := 4096

/-- What the kernel does in a step. -/
inductive Label
  /-- `epoll_wait` fails or returns a batch. -/
  | epollWait (batch : Option (List EpollEvent))
  /-- The next event is handled; `accept` or `read`, if called, return this. -/
  | event (connfd : ℤ) (read : ReadResult)

/-- The initialisation of lines 35-58. -/
def start (listenfd epollfd : ℕ) : Epoll where
  client _ := -1
  maxi := -1
  listenfd := listenfd
  epollfd := epollfd
  events := []
  i := 0
  interest := {(listenfd : ℤ)}
  connections := ∅
  calls := []
  exited := none

/-- `close(fd)`: a closed descriptor leaves the interest set; `close` of a number that is not
that of an open descriptor fails, and the server does not look at its result. -/
def close (fd : ℤ) (s : Epoll) : Epoll :=
  { s with
    interest := s.interest.erase fd
    connections := s.connections.erase fd
    calls := s.calls ++ [.close fd] }

/-- Lines 70-91: `accept`, the first free slot and `EPOLL_CTL_ADD`, which fails for a number
that is not a descriptor or is watched already. -/
def acceptClient (connfd : ℤ) (s : Epoll) : Epoll :=
  let connections := if connfd < 0 then s.connections else insert connfd s.connections
  let calls := s.calls ++ [.accept]
  let j := firstVacant vacant s.client maxOpenFileNum 0
  if j = maxOpenFileNum then
    { s with connections := connections, calls := calls, exited := some (-4) }
  else
    { s with
      client := Function.update s.client j connfd
      maxi := if s.maxi < j then j else s.maxi
      interest := if connfd < 0 then s.interest else insert connfd s.interest
      connections := connections
      calls := calls
      exited := if connfd < 0 ∨ connfd ∈ s.interest then some (-4) else s.exited }

/-- The loop of lines 102-108, over the `n` slots from `j` on. -/
def closeClients (sockfd : ℤ) : ℕ → ℕ → Epoll → Epoll
  | 0, _, s => s
  | n + 1, j, s =>
    closeClients sockfd n (j + 1)
      (if s.client j = sockfd then
        { close (s.client j) s with client := Function.update s.client j (-1) }
      else s)

/-- Lines 96-125.  The branch for `ECONNRESET` uses the position of the event, `i`, as an
index of `client`. -/
def serveClient (read : ReadResult) (sockfd : ℤ) (s : Epoll) : Epoll :=
  let s := { s with calls := s.calls ++ [.read sockfd] }
  match read with
  | .eof =>
    if sockfd ∈ s.interest then
      closeClients sockfd (s.maxi + 1).toNat 0 { s with interest := s.interest.erase sockfd }
    else { s with exited := some (-5) }
  | .error .econnreset => close (s.client s.i) s
  | .error _ => { s with exited := some (-3) }
  | .data bytes => { s with calls := s.calls ++ [echo sockfd (.data bytes)] }

/-- Lines 69-127: one event of the batch. -/
def serveEvent (connfd : ℤ) (read : ReadResult) (e : EpollEvent) (s : Epoll) : Epoll :=
  if e.fd = s.listenfd then acceptClient connfd s
  else if e.events &&& epollIn ≠ 0 then serveClient read e.fd s
  else s

/-- The server is at `epoll_wait`: it has not exited and the batch is done. -/
def Waiting (s : Epoll) : Prop := s.exited = none ∧ s.events.length ≤ s.i

instance (s : Epoll) : Decidable (Waiting s) := inferInstanceAs (Decidable (_ ∧ _))

/-- One step of the server. -/
def advance (s : Epoll) : Label → Option Epoll
  | .epollWait none => if Waiting s then some { s with exited := some (-3) } else none
  | .epollWait (some batch) => if Waiting s then some { s with events := batch, i := 0 } else none
  | .event connfd read =>
    match s.events[s.i]? with
    | none => none
    | some e =>
      if s.exited = none then some { serveEvent connfd read e s with i := s.i + 1 } else none

/-- A read gives data, end of file or `ECONNRESET`. -/
def Usual : ReadResult → Bool
  | .error e => decide (e = .econnreset)
  | _ => true

/-- A batch has at most `MAX_OPEN_FILE_NUM` events of watched descriptors, one for each;
`accept` returns a descriptor that is not open, so neither `listenfd` nor `epollfd`. -/
def Env (s : Epoll) : Label → Prop
  | .epollWait none => True
  | .epollWait (some batch) => (batch.map EpollEvent.fd).Nodup ∧
      (∀ e ∈ batch, e.fd ∈ s.interest) ∧ batch.length ≤ maxOpenFileNum
  | .event connfd read => ∀ e ∈ s.events[s.i]?,
      (e.fd = s.listenfd → 0 ≤ connfd ∧ connfd ≠ s.listenfd ∧ connfd ≠ s.epollfd ∧
        connfd ∉ s.connections) ∧
        (e.fd ≠ s.listenfd → Usual read = true)

instance : ∀ s l, Decidable (Env s l)
  | _, .epollWait none => inferInstanceAs (Decidable True)
  | _, .epollWait (some _) => inferInstanceAs (Decidable (_ ∧ _ ∧ _))
  | s, .event _ _ => inferInstanceAs (Decidable (∀ e ∈ s.events[s.i]?, _))

/-- A step in an environment as `Env` says. -/
def next (s : Epoll) (l : Label) : Option Epoll := if Env s l then advance s l else none

/-- The runs of the server. -/
def server (listenfd epollfd : ℕ) : System Epoll Label :=
  System.ofStep (start listenfd epollfd) next

/-- What a step is. -/
theorem next_cases {s s' : Epoll} {l : Label} (h : next s l = some s') :
    (l = .epollWait none ∧ Waiting s ∧ s' = { s with exited := some (-3) }) ∨
    (∃ batch, l = .epollWait (some batch) ∧ Waiting s ∧ Env s l ∧
      s' = { s with events := batch, i := 0 }) ∨
    ∃ connfd read e, l = .event connfd read ∧ s.events[s.i]? = some e ∧ s.exited = none ∧
      Env s l ∧ s' = { serveEvent connfd read e s with i := s.i + 1 } := by
  unfold next at h
  by_cases henv : Env s l
  · rw [if_pos henv] at h
    cases l with
    | epollWait batch =>
      cases batch with
      | none =>
        rw [advance, Option.ite_none_right_eq_some] at h
        exact .inl ⟨rfl, h.1, (Option.some.inj h.2).symm⟩
      | some batch =>
        rw [advance, Option.ite_none_right_eq_some] at h
        exact .inr (.inl ⟨batch, rfl, h.1, henv, (Option.some.inj h.2).symm⟩)
    | event connfd read =>
      unfold advance at h
      simp only at h
      split at h
      · cases h
      · next e he =>
        rw [Option.ite_none_right_eq_some] at h
        exact .inr (.inr ⟨connfd, read, e, rfl, he, h.1, henv, (Option.some.inj h.2).symm⟩)
  · rw [if_neg henv] at h
    cases h

theorem next_running {s s' : Epoll} {l : Label} (h : next s l = some s') : s.exited = none := by
  obtain ⟨-, hwait, -⟩ | ⟨batch, -, hwait, -⟩ | ⟨connfd, read, e, -, -, hrunning, -⟩ :=
    next_cases h
  · exact hwait.1
  · exact hwait.1
  · exact hrunning

/-! ## The loop that closes a client -/

theorem closeClients_frame (sockfd : ℤ) (n j : ℕ) (s : Epoll) :
    (closeClients sockfd n j s).maxi = s.maxi ∧
      (closeClients sockfd n j s).listenfd = s.listenfd ∧
      (closeClients sockfd n j s).events = s.events ∧
      (closeClients sockfd n j s).i = s.i ∧
      (closeClients sockfd n j s).exited = s.exited := by
  induction n generalizing j s with
  | zero => exact ⟨rfl, rfl, rfl, rfl, rfl⟩
  | succ n ih =>
    unfold closeClients
    split
    · exact ih (j + 1) _
    · exact ih (j + 1) s

/-- The slots that hold `sockfd` are emptied. -/
theorem closeClients_client (sockfd : ℤ) (n j : ℕ) (s : Epoll) (k : ℕ) :
    (closeClients sockfd n j s).client k =
      if (j ≤ k ∧ k < j + n) ∧ s.client k = sockfd then -1 else s.client k := by
  induction n generalizing j s with
  | zero =>
    rw [if_neg (by omega)]
    rfl
  | succ n ih =>
    unfold closeClients
    split
    · next hj =>
      rw [ih]
      by_cases hk : k = j
      · subst hk
        rw [if_neg (by omega), if_pos ⟨by omega, hj⟩]
        exact Function.update_self ..
      · have hsame : Function.update s.client j (-1) k = s.client k :=
          Function.update_of_ne hk ..
        simp only [hsame]
        congr 2
        apply propext
        omega
    · next hj =>
      rw [ih]
      by_cases hk : k = j
      · subst hk
        rw [if_neg (by omega), if_neg fun h => hj h.2]
      · congr 2
        apply propext
        omega

/-- Nothing but `sockfd` is closed, and `sockfd` is closed if a slot holds it. -/
theorem mem_closeClients_connections {sockfd c : ℤ} (n j : ℕ) (s : Epoll) :
    c ∈ (closeClients sockfd n j s).connections ↔
      c ∈ s.connections ∧
        ¬ (c = sockfd ∧ ∃ k, (j ≤ k ∧ k < j + n) ∧ s.client k = sockfd) := by
  induction n generalizing j s with
  | zero =>
    have hnone : ¬ ∃ k, (j ≤ k ∧ k < j + 0) ∧ s.client k = sockfd := by
      rintro ⟨k, hk, -⟩
      omega
    exact (and_iff_left fun h => hnone h.2).symm
  | succ n ih =>
    unfold closeClients
    split
    · next hj =>
      have hex : ∃ k, (j ≤ k ∧ k < j + (n + 1)) ∧ s.client k = sockfd := ⟨j, by omega, hj⟩
      rw [ih]
      simp only [close, hj, Finset.mem_erase, hex, and_true]
      constructor
      · rintro ⟨⟨hne, hc⟩, -⟩
        exact ⟨hc, hne⟩
      · rintro ⟨hc, hne⟩
        exact ⟨⟨hne, hc⟩, fun h => hne h.1⟩
    · next hj =>
      have hshift : (∃ k, (j + 1 ≤ k ∧ k < j + 1 + n) ∧ s.client k = sockfd) ↔
          ∃ k, (j ≤ k ∧ k < j + (n + 1)) ∧ s.client k = sockfd := by
        constructor
        · rintro ⟨k, hk, hs⟩
          exact ⟨k, by omega, hs⟩
        · rintro ⟨k, hk, hs⟩
          have hne : k ≠ j := by
            rintro rfl
            exact hj hs
          exact ⟨k, by omega, hs⟩
      rw [ih, hshift]

theorem closeClients_interest {sockfd : ℤ} (n j : ℕ) {s : Epoll} (h : sockfd ∉ s.interest) :
    (closeClients sockfd n j s).interest = s.interest := by
  induction n generalizing j s with
  | zero => rfl
  | succ n ih =>
    unfold closeClients
    split
    · next hj =>
      have herase : s.interest.erase (s.client j) = s.interest := by
        rw [hj]
        exact Finset.erase_eq_of_notMem h
      exact (ih (j + 1) (by rwa [← herase] at h)).trans herase
    · exact ih (j + 1) h

/-! ## The invariant -/

/-- The interest set and the table agree with the open connections. -/
structure EpollInv (s : Epoll) : Prop where
  table : Lists vacant s.client (s.maxi + 1).toNat s.connections
  maxi : -1 ≤ s.maxi
  watched : s.interest = insert s.listenfd s.connections
  listening : 0 ≤ s.listenfd ∧ s.listenfd ∉ s.connections

theorem start_inv (listenfd epollfd : ℕ) : EpollInv (start listenfd epollfd) where
  table := Lists.empty (fun _ => by simp [start, vacant]) (by simp [start])
  maxi := le_rfl
  watched := by simp [start]
  listening := ⟨Int.natCast_nonneg _, Finset.notMem_empty _⟩

theorem EpollInv.mem_connections {s : Epoll} (h : EpollInv s) {fd : ℤ} :
    fd ∈ s.connections ↔ 0 ≤ fd ∧ ∃ j, s.client j = fd := by
  have hmem := h.table.mem_iff fd
  rw [Finset.mem_coe] at hmem
  rw [hmem, vacant, not_lt]

theorem EpollInv.acceptClient {s : Epoll} (h : EpollInv s) {connfd : ℤ} (hpos : 0 ≤ connfd)
    (hlisten : connfd ≠ s.listenfd) (hnew : connfd ∉ s.connections)
    (hrunning : (acceptClient connfd s).exited = none) : EpollInv (acceptClient connfd s) := by
  have hfull : firstVacant vacant s.client maxOpenFileNum 0 ≠ maxOpenFileNum := by
    intro hfull
    rw [Epoll.acceptClient, if_pos hfull] at hrunning
    cases hrunning
  have hslot := vacant_of_found hfull
  unfold Epoll.acceptClient
  rw [if_neg hfull, if_neg (not_lt.mpr hpos), if_neg (not_lt.mpr hpos)]
  generalize firstVacant vacant s.client maxOpenFileNum 0 = j at hslot
  refine ⟨?_, neg_one_le_maxi h.maxi j, ?_, h.listening.1, ?_⟩
  · rw [Finset.coe_insert]
    exact lists_accept h.table h.maxi hslot hpos hnew
  · rw [h.watched, Finset.insert_comm]
  · rw [Finset.mem_insert, not_or]
    exact ⟨hlisten.symm, h.listening.2⟩

/-- Closing what is not a descriptor. -/
theorem EpollInv.close {s : Epoll} (h : EpollInv s) {fd : ℤ} (hfd : fd < 0) :
    EpollInv (close fd s) := by
  have hconn : fd ∉ s.connections := fun hmem => not_lt.mpr (h.mem_connections.mp hmem).1 hfd
  have hint : fd ∉ s.interest := by
    rw [h.watched, Finset.mem_insert, not_or]
    exact ⟨fun heq => not_lt.mpr h.listening.1 (heq ▸ hfd), hconn⟩
  unfold Epoll.close
  rw [Finset.erase_eq_of_notMem hconn, Finset.erase_eq_of_notMem hint]
  exact ⟨h.table, h.maxi, h.watched, h.listening⟩

/-- The end of file of a watched connection removes it from the three records. -/
theorem EpollInv.closeClients {s : Epoll} (h : EpollInv s) {sockfd : ℤ}
    (hmem : sockfd ∈ s.connections) :
    EpollInv (closeClients sockfd (s.maxi + 1).toNat 0
      { s with interest := s.interest.erase sockfd }) := by
  have hne : sockfd ≠ s.listenfd := fun heq => h.listening.2 (heq ▸ hmem)
  obtain ⟨hpos, k, hk⟩ := h.mem_connections.mp hmem
  have hbelow : ∀ j, s.client j = sockfd → 0 ≤ j ∧ j < 0 + (s.maxi + 1).toNat := by
    intro j hj
    have := h.table.below j (by rw [hj]; exact not_lt.mpr hpos)
    omega
  obtain ⟨hmaxi, hlisten, -⟩ := closeClients_frame sockfd (s.maxi + 1).toNat 0
    { s with interest := s.interest.erase sockfd }
  have hconn : (Epoll.closeClients sockfd (s.maxi + 1).toNat 0
      { s with interest := s.interest.erase sockfd }).connections =
        s.connections.erase sockfd := by
    ext c
    rw [mem_closeClients_connections, Finset.mem_erase]
    have hex : ∃ k, (0 ≤ k ∧ k < 0 + (s.maxi + 1).toNat) ∧ s.client k = sockfd :=
      ⟨k, hbelow k hk, hk⟩
    simp only [hex, and_true]
    exact and_comm
  refine ⟨?_, ?_, ?_, ?_⟩
  · rw [hconn, hmaxi, Finset.coe_erase]
    refine h.table.remove (e := -1) (by simp [vacant]) fun j => ?_
    rw [closeClients_client]
    by_cases hj : s.client j = sockfd
    · exact .inr ⟨if_pos ⟨hbelow j hj, hj⟩, hj⟩
    · exact .inl ⟨if_neg fun hand => hj hand.2, hj⟩
  · rw [hmaxi]
    exact h.maxi
  · rw [closeClients_interest _ _ (Finset.notMem_erase _ _), hconn, hlisten]
    simp only
    rw [h.watched, Finset.erase_insert_of_ne hne.symm]
  · rw [hconn, hlisten]
    exact ⟨h.listening.1, fun hl => h.listening.2 (Finset.mem_of_mem_erase hl)⟩

/-- In a step that handles `ECONNRESET`, the slot whose index is the position of the event is
free. -/
def ResetsFree (s : Epoll) : Label → Prop
  | .event _ (.error .econnreset) => ∀ e ∈ s.events[s.i]?,
      e.fd ≠ s.listenfd → e.events &&& epollIn ≠ 0 → s.client s.i < 0
  | _ => True

instance : ∀ s l, Decidable (ResetsFree s l)
  | s, .event _ (.error .econnreset) => inferInstanceAs (Decidable (∀ e ∈ s.events[s.i]?, _))
  | _, .event _ (.error .enotconn) => inferInstanceAs (Decidable True)
  | _, .event _ (.error .other) => inferInstanceAs (Decidable True)
  | _, .event _ (.data _) => inferInstanceAs (Decidable True)
  | _, .event _ .eof => inferInstanceAs (Decidable True)
  | _, .epollWait _ => inferInstanceAs (Decidable True)

theorem EpollInv.serveClient {s : Epoll} (h : EpollInv s) {read : ReadResult} {sockfd : ℤ}
    (hne : sockfd ≠ s.listenfd) (hfree : read = .error .econnreset → s.client s.i < 0)
    (hrunning : (serveClient read sockfd s).exited = none) :
    EpollInv (serveClient read sockfd s) := by
  have hread : EpollInv { s with calls := s.calls ++ [.read sockfd] } :=
    ⟨h.table, h.maxi, h.watched, h.listening⟩
  unfold Epoll.serveClient at hrunning ⊢
  simp only at hrunning ⊢
  split
  · split
    · next hmem =>
      have hconn : sockfd ∈ s.connections := by
        rw [h.watched, Finset.mem_insert] at hmem
        exact hmem.resolve_left hne
      exact hread.closeClients hconn
    · exact ⟨h.table, h.maxi, h.watched, h.listening⟩
  · exact hread.close (hfree rfl)
  · exact ⟨h.table, h.maxi, h.watched, h.listening⟩
  · exact ⟨h.table, h.maxi, h.watched, h.listening⟩

theorem EpollInv.serveEvent {s : Epoll} (h : EpollInv s) {connfd : ℤ} {read : ReadResult}
    {e : EpollEvent} (he : s.events[s.i]? = some e) (henv : Env s (.event connfd read))
    (hfree : ResetsFree s (.event connfd read))
    (hrunning : (serveEvent connfd read e s).exited = none) :
    EpollInv (serveEvent connfd read e s) := by
  unfold Epoll.serveEvent at hrunning ⊢
  by_cases hlisten : e.fd = s.listenfd
  · rw [if_pos hlisten] at hrunning ⊢
    obtain ⟨hpos, hne, -, hnew⟩ := (henv e he).1 hlisten
    exact h.acceptClient hpos hne hnew hrunning
  rw [if_neg hlisten] at hrunning ⊢
  by_cases hin : e.events &&& epollIn ≠ 0
  · rw [if_pos hin] at hrunning ⊢
    refine h.serveClient hlisten (fun hreset => ?_) hrunning
    subst hreset
    exact hfree e he hlisten hin
  · rw [if_neg hin]
    exact h

/-! ## What a step closes -/

/-- A connection is closed in a step only if the step's read is on it and gives end of file or
`ECONNRESET`. -/
def ClosesOwn (e : Event Epoll Label) : Prop :=
  ∀ fd ∈ e.pre.connections, fd ∉ e.post.connections →
    ∃ connfd read ev, e.label = .event connfd read ∧ ev ∈ e.pre.events[e.pre.i]? ∧
      ev.fd = fd ∧ (read = .eof ∨ read = .error .econnreset)

theorem acceptClient_connections (connfd : ℤ) (s : Epoll) :
    (acceptClient connfd s).connections =
      if connfd < 0 then s.connections else insert connfd s.connections := by
  unfold acceptClient
  simp only
  split <;> rfl

/-- The two ways in which the handling of an event closes a connection. -/
theorem closed_cases {s : Epoll} {connfd : ℤ} {read : ReadResult} {e : EpollEvent} {fd : ℤ}
    (hopen : fd ∈ s.connections) (hclosed : fd ∉ (serveEvent connfd read e s).connections) :
    (read = .eof ∧ e.fd = fd) ∨
      (read = .error .econnreset ∧ s.client s.i = fd ∧ e.fd ≠ s.listenfd ∧
        e.events &&& epollIn ≠ 0) := by
  unfold serveEvent at hclosed
  by_cases hlisten : e.fd = s.listenfd
  · rw [if_pos hlisten, acceptClient_connections] at hclosed
    split at hclosed
    · exact absurd hopen hclosed
    · exact absurd (Finset.mem_insert_of_mem hopen) hclosed
  rw [if_neg hlisten] at hclosed
  by_cases hin : e.events &&& epollIn ≠ 0
  · rw [if_pos hin] at hclosed
    unfold serveClient at hclosed
    simp only at hclosed
    split at hclosed
    · split at hclosed
      · rw [mem_closeClients_connections] at hclosed
        refine .inl ⟨rfl, ?_⟩
        by_contra hne
        exact hclosed ⟨hopen, fun h => hne h.1.symm⟩
      · exact absurd hopen hclosed
    · refine .inr ⟨rfl, ?_, hlisten, hin⟩
      by_contra hne
      exact hclosed (Finset.mem_erase.mpr ⟨fun heq => hne heq.symm, hopen⟩)
    · exact absurd hopen hclosed
    · exact absurd hopen hclosed
  · rw [if_neg hin] at hclosed
    exact absurd hopen hclosed

theorem EpollInv.next {s s' : Epoll} {l : Label} (h : EpollInv s) (hstep : next s l = some s')
    (hfree : ResetsFree s l) (hrunning : s'.exited = none) : EpollInv s' := by
  obtain ⟨-, -, rfl⟩ | ⟨batch, -, -, -, rfl⟩ | ⟨connfd, read, e, rfl, he, -, henv, rfl⟩ :=
    next_cases hstep
  · cases hrunning
  · exact ⟨h.table, h.maxi, h.watched, h.listening⟩
  · obtain ⟨htable, hmaxi, hwatched, hlistening⟩ := h.serveEvent he henv hfree hrunning
    exact ⟨htable, hmaxi, hwatched, hlistening⟩

theorem closesOwn_next {s s' : Epoll} {l : Label} (h : EpollInv s) (hstep : next s l = some s')
    (hfree : ResetsFree s l) : ClosesOwn ⟨s, l, s'⟩ := by
  intro fd hopen hclosed
  obtain ⟨-, -, rfl⟩ | ⟨batch, -, -, -, rfl⟩ | ⟨connfd, read, e, rfl, he, -, henv, rfl⟩ :=
    next_cases hstep
  · exact absurd hopen hclosed
  · exact absurd hopen hclosed
  · refine ⟨connfd, read, e, rfl, he, ?_⟩
    rcases closed_cases hopen hclosed with ⟨hread, hfd⟩ | ⟨hread, hslot, hlisten, hin⟩
    · exact ⟨hfd, .inl hread⟩
    · subst hread
      have hneg : fd < 0 := hslot ▸ hfree e he hlisten hin
      exact absurd (h.mem_connections.mp hopen).1 (not_le.mpr hneg)

/-! ## A slot that is left behind -/

/-- A slot holds the number of a connection that is closed, or that another slot holds as well,
and no event of the batch that is still to be handled is about it. -/
structure Stale (s : Epoll) (c : ℤ) : Prop where
  nonneg : 0 ≤ c
  handled : ∀ e ∈ s.events.drop s.i, e.fd ≠ c
  slot : ∃ j, s.client j = c ∧ (c ∉ s.connections ∨ ∃ k, k ≠ j ∧ s.client k = c)

/-- A slot in use is only changed by an event of its own descriptor. -/
theorem serveEvent_client {s : Epoll} {connfd : ℤ} {read : ReadResult} {e : EpollEvent} {j : ℕ}
    (hj : 0 ≤ s.client j) (hne : e.fd ≠ s.client j) :
    (serveEvent connfd read e s).client j = s.client j := by
  unfold serveEvent
  split
  · unfold acceptClient
    simp only
    split
    · rfl
    · next hfull =>
      have hslot := vacant_of_found hfull
      refine Function.update_of_ne ?_ ..
      intro heq
      rw [← heq] at hslot
      exact not_lt.mpr hj hslot
  split
  · unfold serveClient
    simp only
    split
    · split
      · rw [closeClients_client, if_neg fun h => hne h.2.symm]
      · rfl
    · rfl
    · rfl
    · rfl
  · rfl

/-- A descriptor that becomes open in a step is in a slot that was free, unless the server
exits. -/
theorem opened_cases {s : Epoll} {connfd : ℤ} {read : ReadResult} {e : EpollEvent} {c : ℤ}
    (hclosed : c ∉ s.connections) (hopen : c ∈ (serveEvent connfd read e s).connections)
    (hrunning : (serveEvent connfd read e s).exited = none) :
    ∃ k, s.client k < 0 ∧ (serveEvent connfd read e s).client k = c := by
  unfold serveEvent at hopen hrunning ⊢
  by_cases hlisten : e.fd = s.listenfd
  · rw [if_pos hlisten] at hopen hrunning ⊢
    have hc : c = connfd := by
      rw [acceptClient_connections] at hopen
      split at hopen
      · exact absurd hopen hclosed
      · exact (Finset.mem_insert.mp hopen).resolve_right hclosed
    subst hc
    unfold acceptClient at hrunning ⊢
    simp only at hrunning ⊢
    split
    · next hfull =>
      rw [if_pos hfull] at hrunning
      cases hrunning
    · next hfull =>
      exact ⟨_, vacant_of_found hfull, Function.update_self ..⟩
  rw [if_neg hlisten] at hopen
  refine absurd ?_ hclosed
  split at hopen
  · unfold serveClient at hopen
    simp only at hopen
    split at hopen
    · split at hopen
      · exact ((mem_closeClients_connections ..).mp hopen).1
      · exact hopen
    · exact Finset.mem_of_mem_erase hopen
    · exact hopen
    · exact hopen
  · exact hopen

theorem serveEvent_events (connfd : ℤ) (read : ReadResult) (e : EpollEvent) (s : Epoll) :
    (serveEvent connfd read e s).events = s.events := by
  unfold serveEvent
  split
  · unfold acceptClient
    simp only
    split <;> rfl
  split
  · unfold serveClient
    simp only
    split
    · split
      · exact (closeClients_frame ..).2.2.1
      · rfl
    · rfl
    · rfl
    · rfl
  · rfl

theorem drop_eq_cons {s : Epoll} {e : EpollEvent} (he : s.events[s.i]? = some e) :
    s.events.drop s.i = e :: s.events.drop (s.i + 1) := by
  obtain ⟨hlt, heq⟩ := List.getElem?_eq_some_iff.mp he
  rw [List.drop_eq_getElem_cons hlt, heq]

/-- What is left behind stays until the batch is done. -/
theorem Stale.serveEvent {s : Epoll} {c : ℤ} (h : Stale s c) {connfd : ℤ} {read : ReadResult}
    {e : EpollEvent} (he : s.events[s.i]? = some e)
    (hrunning : (serveEvent connfd read e s).exited = none) :
    Stale { serveEvent connfd read e s with i := s.i + 1 } c := by
  have hdrop := drop_eq_cons he
  have hne : e.fd ≠ c := h.handled e (hdrop ▸ List.mem_cons_self)
  have hkeep : ∀ j, s.client j = c → (Epoll.serveEvent connfd read e s).client j = c := by
    intro j hj
    rw [serveEvent_client (hj ▸ h.nonneg) (hj ▸ hne), hj]
  obtain ⟨j, hj, hbad⟩ := h.slot
  refine ⟨h.nonneg, fun e' he' => ?_, j, hkeep j hj, ?_⟩
  · simp only [serveEvent_events] at he'
    exact h.handled e' (hdrop ▸ List.mem_cons_of_mem _ he')
  · rcases hbad with hclosed | ⟨k, hk, hslot⟩
    · by_cases hopen : c ∈ (Epoll.serveEvent connfd read e s).connections
      · obtain ⟨k, hvac, hk⟩ := opened_cases hclosed hopen hrunning
        refine .inr ⟨k, ?_, hk⟩
        rintro rfl
        rw [hj] at hvac
        exact not_lt.mpr h.nonneg hvac
      · exact .inl hopen
    · exact .inr ⟨k, hk, hkeep k hslot⟩

theorem nodup_of_run {listenfd epollfd : ℕ} {h : List (Event Epoll Label)} {s : Epoll}
    (hrun : (server listenfd epollfd).Run h s) : (s.events.map EpollEvent.fd).Nodup := by
  refine hrun.invariant (I := fun s => (s.events.map EpollEvent.fd).Nodup) ?_ ?_
  · intro s hs
    rw [hs]
    exact List.nodup_nil
  · intro s l s' _ hstep hnodup
    obtain ⟨-, -, rfl⟩ | ⟨batch, rfl, -, henv, rfl⟩ | ⟨connfd, read, e, -, -, -, -, rfl⟩ :=
      next_cases hstep
    · exact hnodup
    · exact henv.1
    · simp only [serveEvent_events]
      exact hnodup

/-- A reset on an event at the position of a slot in use closes the connection of another
client, or leaves its own slot behind. -/
theorem not_closesOwn_or_stale {s s' : Epoll} {l : Label} (h : EpollInv s)
    (hnodup : (s.events.map EpollEvent.fd).Nodup) (hstep : next s l = some s')
    (hnot : ¬ ResetsFree s l) : ¬ ClosesOwn ⟨s, l, s'⟩ ∨ ∃ c, Stale s' c := by
  obtain ⟨rfl, -, rfl⟩ | ⟨batch, rfl, -, -, rfl⟩ | ⟨connfd, read, e, rfl, he, -, -, rfl⟩ :=
    next_cases hstep
  · exact absurd trivial hnot
  · exact absurd trivial hnot
  have hreset : read = .error .econnreset ∧ e.fd ≠ s.listenfd ∧ e.events &&& epollIn ≠ 0 ∧
      0 ≤ s.client s.i := by
    unfold ResetsFree at hnot
    split at hnot
    · next heq =>
      obtain ⟨-, rfl⟩ := Label.event.inj heq
      push Not at hnot
      obtain ⟨e', he', hrest⟩ := hnot
      rw [Option.mem_def, he] at he'
      obtain rfl := Option.some.inj he'
      exact ⟨rfl, hrest⟩
    · exact absurd trivial hnot
  obtain ⟨rfl, hlisten, hin, hslot⟩ := hreset
  have hpost : serveEvent connfd (.error .econnreset) e s =
      close (s.client s.i) { s with calls := s.calls ++ [.read e.fd] } := by
    rw [serveEvent, if_neg hlisten, if_pos hin]
    rfl
  have hopen : s.client s.i ∈ s.connections := h.mem_connections.mpr ⟨hslot, s.i, rfl⟩
  have hclosed : s.client s.i ∉
      (serveEvent connfd (.error .econnreset) e s).connections := by
    rw [hpost]
    exact Finset.notMem_erase _ _
  by_cases hown : e.fd = s.client s.i
  · refine .inr ⟨s.client s.i, hslot, fun e' he' => ?_, s.i, ?_, .inl hclosed⟩
    · simp only [serveEvent_events] at he'
      have htail : ((s.events.drop s.i).map EpollEvent.fd).Nodup :=
        hnodup.sublist ((List.drop_sublist _ _).map _)
      rw [drop_eq_cons he, List.map_cons, List.nodup_cons] at htail
      intro hfd
      exact htail.1 (List.mem_map.mpr ⟨e', he', hfd.trans hown.symm⟩)
    · rw [hpost]
      rfl
  · refine .inl fun hclosesOwn => ?_
    obtain ⟨connfd', read', ev, -, hev, hfd, -⟩ := hclosesOwn _ hopen hclosed
    rw [Option.mem_def, he] at hev
    exact hown (Option.some.inj hev ▸ hfd)

/-! ## The table, the interest set and the open connections -/

/-- The table lists the open connections, and they are what is watched besides `listenfd`. -/
structure Agrees (s : Epoll) : Prop where
  distinct : ∀ i j, 0 ≤ s.client i → s.client i = s.client j → i = j
  below : ∀ j : ℕ, 0 ≤ s.client j → (j : ℤ) ≤ s.maxi
  opened : ∀ fd, fd ∈ s.connections ↔ 0 ≤ fd ∧ ∃ j, s.client j = fd
  watched : ∀ fd, fd ∈ s.interest.erase s.listenfd ↔ 0 ≤ fd ∧ ∃ j, s.client j = fd

/-- In the run with history `h` the three agree whenever the server is at `epoll_wait`, and a
connection is closed only as a result of a read on it. -/
structure TablesAgree (listenfd epollfd : ℕ) (h : List (Event Epoll Label)) : Prop where
  agrees : ∀ h₀ s₀, h₀ <+: h → (server listenfd epollfd).Run h₀ s₀ → Waiting s₀ → Agrees s₀
  own : ∀ e ∈ h, ClosesOwn e

theorem EpollInv.agrees {s : Epoll} (h : EpollInv s) : Agrees s where
  distinct i j hi hij := h.table.distinct i j (not_lt.mpr hi) hij
  below j hj := by
    have hbelow := h.table.below j (not_lt.mpr hj)
    omega
  opened _ := h.mem_connections
  watched fd := by
    rw [h.watched, Finset.erase_insert h.listening.2]
    exact h.mem_connections

theorem Stale.not_agrees {s : Epoll} {c : ℤ} (h : Stale s c) : ¬ Agrees s := by
  intro hagrees
  obtain ⟨j, hj, hclosed | ⟨k, hne, hk⟩⟩ := h.slot
  · exact hclosed ((hagrees.opened c).mpr ⟨h.nonneg, j, hj⟩)
  · exact hne (hagrees.distinct k j (hk ▸ h.nonneg) (hk.trans hj.symm))

theorem TablesAgree.mono {listenfd epollfd : ℕ} {h h' : List (Event Epoll Label)} (hpre : h' <+: h)
    (hagree : TablesAgree listenfd epollfd h) : TablesAgree listenfd epollfd h' where
  agrees h₀ s₀ hle := hagree.agrees h₀ s₀ (hle.trans hpre)
  own e he := hagree.own e (hpre.subset he)

/-- While resets meet free slots only, the invariant holds until the server exits. -/
theorem epollInv_of_run {listenfd epollfd : ℕ} {h : List (Event Epoll Label)} {s : Epoll}
    (hrun : (server listenfd epollfd).Run h s) (hfree : ∀ e ∈ h, ResetsFree e.pre e.label) :
    (s.exited = none → EpollInv s) ∧ ∀ e ∈ h, ClosesOwn e := by
  revert hfree
  refine hrun.ledger (J := fun h s => (∀ e ∈ h, ResetsFree e.pre e.label) →
    (s.exited = none → EpollInv s) ∧ ∀ e ∈ h, ClosesOwn e) ?_ ?_
  · intro s hs _
    rw [hs]
    exact ⟨fun _ => start_inv listenfd epollfd, fun e he => absurd he List.not_mem_nil⟩
  · intro h s l s' _ hstep ih hfree
    rw [List.forall_mem_append] at hfree
    obtain ⟨hinv, hown⟩ := ih hfree.1
    have hlast : ResetsFree s l := hfree.2 _ (List.mem_singleton_self _)
    have hrunning := next_running hstep
    refine ⟨(hinv hrunning).next hstep hlast, ?_⟩
    rw [List.forall_mem_append]
    refine ⟨hown, fun e he => ?_⟩
    obtain rfl := List.mem_singleton.mp he
    exact closesOwn_next (hinv hrunning) hstep hlast

/-- After a reset on an event at the position of a slot in use, a run has closed a connection
that was not the event's, or has been at `epoll_wait` with a slot left behind, or there is one
now, or the server has exited. -/
theorem trace_of_run {listenfd epollfd : ℕ} {h : List (Event Epoll Label)} {s : Epoll}
    (hrun : (server listenfd epollfd).Run h s) :
    (∀ e ∈ h, ResetsFree e.pre e.label) ∨ ¬ TablesAgree listenfd epollfd h ∨ s.exited ≠ none ∨
      ∃ c, Stale s c := by
  refine hrun.ledger (J := fun h s => (∀ e ∈ h, ResetsFree e.pre e.label) ∨
    ¬ TablesAgree listenfd epollfd h ∨ s.exited ≠ none ∨ ∃ c, Stale s c) ?_ ?_
  · intro s _
    exact .inl fun e he => absurd he List.not_mem_nil
  · intro h s l s' hr hstep ih
    have hrunning := next_running hstep
    have hpre : h <+: h ++ [⟨s, l, s'⟩] := List.prefix_append _ _
    rcases ih with hfree | hnot | hexit | ⟨c, hstale⟩
    · by_cases hlast : ResetsFree s l
      · refine .inl ?_
        rw [List.forall_mem_append]
        refine ⟨hfree, fun e he => ?_⟩
        obtain rfl := List.mem_singleton.mp he
        exact hlast
      · have hinv := (epollInv_of_run hr hfree).1 hrunning
        rcases not_closesOwn_or_stale hinv (nodup_of_run hr) hstep hlast with hother | hstale
        · refine .inr (.inl fun hagree => hother (hagree.own _ ?_))
          exact List.mem_append_right _ (List.mem_singleton_self _)
        · exact .inr (.inr (.inr hstale))
    · exact .inr (.inl fun hagree => hnot (hagree.mono hpre))
    · exact absurd hrunning hexit
    · obtain ⟨-, hwait, -⟩ | ⟨batch, -, hwait, -⟩ | ⟨connfd, read, e, -, he, -, -, rfl⟩ :=
        next_cases hstep
      · exact .inr (.inl fun hagree => hstale.not_agrees (hagree.agrees h s hpre hr hwait))
      · exact .inr (.inl fun hagree => hstale.not_agrees (hagree.agrees h s hpre hr hwait))
      · by_cases hexit : (serveEvent connfd read e s).exited = none
        · exact .inr (.inr (.inr ⟨c, hstale.serveEvent he hexit⟩))
        · exact .inr (.inr (.inl hexit))

/-- **The table, the interest set and the open connections agree in a run whose resets are all
on events at the position of a free slot**, and in no other run that comes back to
`epoll_wait`. -/
theorem tables_agree_iff (listenfd epollfd : ℕ) (h : List (Event Epoll Label)) (s : Epoll)
    (hrun : (server listenfd epollfd).Run h s) :
    ((∀ e ∈ h, ResetsFree e.pre e.label) → TablesAgree listenfd epollfd h) ∧
      (Waiting s → TablesAgree listenfd epollfd h → ∀ e ∈ h, ResetsFree e.pre e.label) := by
  constructor
  · intro hfree
    refine ⟨fun h₀ s₀ hpre hr hwait => ?_, (epollInv_of_run hrun hfree).2⟩
    have hinv := (epollInv_of_run hr fun e he => hfree e (hpre.subset he)).1 hwait.1
    exact hinv.agrees
  · intro hwait hagree
    rcases trace_of_run hrun with hfree | hnot | hexit | ⟨c, hstale⟩
    · exact hfree
    · exact absurd hagree hnot
    · exact absurd hwait.1 hexit
    · exact absurd (hagree.agrees h s List.prefix_rfl hrun hwait) hstale.not_agrees

/-- A schedule that executes is a run. -/
theorem run_of_exec (listenfd epollfd : ℕ) (ls : List Label)
    (P : List (Event Epoll Label) → Epoll → Bool)
    (hP : (System.exec next [] (start listenfd epollfd) ls).any (fun r => P r.1 r.2) = true) :
    ∃ h s, (server listenfd epollfd).Run h s ∧ P h s = true :=
  System.exists_run_of_exec _ _ ls P hP

/-- A batch of one new connection. -/
def connect (connfd : ℤ) : List Label :=
  [.epollWait (some [⟨epollIn, 3⟩]), .event connfd .eof]

/-- The clients `5`, `6` and `7` connect; then `6` hangs up and `7` is reset. -/
theorem tables_agree_three_clients : ∃ h s, (server 3 4).Run h s ∧ s.connections = {5, 7} ∧
    TablesAgree 3 4 h := by
  obtain ⟨h, s, hrun, htest⟩ := run_of_exec 3 4
    (connect 5 ++ connect 6 ++ connect 7 ++
      [.epollWait (some [⟨epollIn, 6⟩, ⟨epollIn, 7⟩]), .event 0 .eof,
        .event 0 (.error .econnreset)])
    (fun h s => decide (s.connections = {5, 7} ∧ ∀ e ∈ h, ResetsFree e.pre e.label)) (by decide)
  obtain ⟨hconn, hfree⟩ := of_decide_eq_true htest
  exact ⟨h, s, hrun, hconn, (tables_agree_iff 3 4 h s hrun).1 hfree⟩

/-- The clients `5` and `6` connect; then `6` is reset, and `5` is closed. -/
theorem reset_closes_other : ¬ ∀ (listenfd epollfd : ℕ) (h : List (Event Epoll Label))
    (s : Epoll), (server listenfd epollfd).Run h s → TablesAgree listenfd epollfd h := by
  intro hall
  obtain ⟨h, s, hrun, htest⟩ := run_of_exec 3 4
    (connect 5 ++ connect 6 ++
      [.epollWait (some [⟨epollIn, 6⟩]), .event 0 (.error .econnreset)])
    (fun _ s => decide (s.connections = {6} ∧ Waiting s ∧ s.client 0 = 5)) (by decide)
  obtain ⟨hconn, hwait, hslot⟩ := of_decide_eq_true htest
  have hagrees := (hall 3 4 h s hrun).agrees h s List.prefix_rfl hrun hwait
  have hmem : (5 : ℤ) ∈ s.connections := (hagrees.opened 5).mpr ⟨by decide, 0, hslot⟩
  rw [hconn] at hmem
  exact absurd hmem (by decide)

end Epoll

end LinuxExercise.Servers
