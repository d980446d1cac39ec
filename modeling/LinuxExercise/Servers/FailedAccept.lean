import LinuxExercise.Servers.SelectDescriptors
import LinuxExercise.Servers.Epoll

/-!
# When `accept` fails

The servers do not look at the result of `accept`.  In the `poll` server `-1` does no harm: it
goes into a free slot, which stays free.  The `select` server passes it on to `FD_SET` first.
The `epoll` server passes it on to `epoll_ctl`, whose result it does look at: it exits, with its
clients and the rest of the batch unserved.

`failed_accept_never_harmless` says so for every state.  What is left of the `select` server
after such a round is still sound (`Tracked`): the table lists the open connections, and the
round serves the clients that are ready.
-/

namespace LinuxExercise.Servers

open SlotTable

namespace Select

/-- `select` reports a subset of `allset` and its size, or fails; `accept` returns a descriptor
that is not open, or fails; `read` fails or returns what fits `buf`. -/
structure Answers (s : Select) (r : Round) : Prop where
  select : 0 ≤ r.nready →
    r.rset ⊆ s.allset ∧ (∀ fd ∈ r.rset, 0 ≤ fd) ∧ r.nready = r.rset.card
  accept : s.listenfd ∈ r.rset → r.connfd = -1 ∨
    0 ≤ r.connfd ∧ r.connfd ≠ s.listenfd ∧ r.connfd ∉ s.connections
  read : ∀ i, (r.read i).Valid

/-! ## The state when `accept` may have failed -/

/-- The state with the watched set that belongs to its connections. -/
def tidy (s : Select) : Select := { s with allset := insert s.listenfd s.connections }

/-- The records of the connections agree, and so does the watched set as far as it consists of
descriptors: a failed `accept` enters `-1` into it. -/
structure Tracked (s : Select) : Prop where
  inv : SelectInv (tidy s)
  watched : ∀ fd, 0 ≤ fd → (fd ∈ s.allset ↔ fd = s.listenfd ∨ fd ∈ s.connections)

theorem start_tracked (listenfd : ℤ) : Tracked (start listenfd) where
  inv := start_inv listenfd
  watched fd _ := by simp [start]

theorem Tracked.mem_connections {s : Select} (h : Tracked s) {fd : ℤ} :
    fd ∈ s.connections ↔ 0 ≤ fd ∧ ∃ i, s.client i = fd := by
  rw [← not_lt]
  exact h.inv.table.mem_iff fd

/-- An occupied slot holds an open connection. -/
theorem Tracked.opened {s : Select} (h : Tracked s) {i : ℕ} (hi : 0 ≤ s.client i) :
    s.client i ∈ s.connections :=
  h.mem_connections.mpr ⟨hi, i, rfl⟩

/-- No two slots hold the same connection. -/
theorem Tracked.distinct {s : Select} (h : Tracked s) {i j : ℕ} (hi : 0 ≤ s.client i)
    (hij : s.client i = s.client j) : i = j :=
  h.inv.table.distinct i j (not_lt.mpr hi) hij

/-- The ready slots hold the connections in `rset`, each in one slot. -/
theorem Tracked.readySlots {s : Select} (h : Tracked s) (rset : Finset ℤ) :
    ((readySlots rset s).map s.client).Nodup ∧
      (∀ i, i ∈ readySlots rset s ↔ 0 ≤ s.client i ∧ s.client i ∈ rset) ∧
      ∀ fd, fd ∈ (readySlots rset s).map s.client ↔ fd ∈ rset ∧ fd ∈ s.connections :=
  h.inv.readySlots rset

theorem Tracked.serveClient {s : Select} (h : Tracked s) {read : ℕ → ReadResult} {i : ℕ}
    (hi : 0 ≤ s.client i) : Tracked (serveClient read i s).1 := by
  have hinv : SelectInv (Select.serveClient read i (tidy s)).1 := h.inv.serveClient (not_lt.mpr hi)
  have hne : s.listenfd ≠ s.client i := fun heq => h.inv.listening (heq ▸ h.opened hi)
  unfold Select.serveClient at hinv ⊢
  simp only at hinv ⊢
  split
  · next hzero =>
    rw [if_pos hzero] at hinv
    refine ⟨?_, fun fd hfd => ?_⟩
    · have hall : (insert s.listenfd s.connections).erase (s.client i) =
          insert s.listenfd (s.connections.erase (s.client i)) :=
        Finset.erase_insert_of_ne hne
      have hinv' : SelectInv (tidy { s with
          allset := s.allset.erase (s.client i)
          client := Function.update s.client i (-1)
          connections := s.connections.erase (s.client i) }) := by
        unfold tidy at hinv ⊢
        rw [← hall]
        exact hinv
      exact hinv'
    · show fd ∈ s.allset.erase (s.client i) ↔
        fd = s.listenfd ∨ fd ∈ s.connections.erase (s.client i)
      rw [Finset.mem_erase, Finset.mem_erase, h.watched fd hfd]
      constructor
      · rintro ⟨hother, hlisten | hopen⟩
        · exact .inl hlisten
        · exact .inr ⟨hother, hopen⟩
      · rintro (rfl | ⟨hother, hopen⟩)
        · exact ⟨hne, .inl rfl⟩
        · exact ⟨hother, .inr hopen⟩
  · exact h

/-- A connection is entered into all records. -/
theorem Tracked.acceptClient {s : Select} (h : Tracked s) {connfd : ℤ} (hpos : 0 ≤ connfd)
    (hnew : connfd ∉ s.connections) (hlisten : connfd ≠ s.listenfd) (hroom : ¬ TableFull s)
    (hrunning : s.exited = none) : Tracked (acceptClient connfd s) := by
  obtain ⟨hexit, hfd, hall, hconn, -⟩ := acceptClient_room hroom hpos
  obtain ⟨hexit', -⟩ := acceptClient_room (s := tidy s) hroom hpos
  have hinv := h.inv.acceptClient hpos hnew hlisten (hexit'.trans hrunning)
  have htidy : Select.acceptClient connfd (tidy s) = tidy (Select.acceptClient connfd s) := by
    have hfound : firstVacant vacant s.client fdSetSize 0 ≠ fdSetSize :=
      fun hfull => hroom (tableFull_iff.mp hfull)
    unfold Select.acceptClient tidy
    simp only [if_neg hfound, if_neg (not_lt.mpr hpos)]
    rw [Finset.insert_comm]
  refine ⟨htidy ▸ hinv, fun fd hpos' => ?_⟩
  rw [hall, hconn, hfd, Finset.mem_insert, Finset.mem_insert, h.watched fd hpos']
  exact or_left_comm

/-- What a failed `accept` does to the variables when there is a free slot. -/
theorem acceptClient_failed {s : Select} (hroom : ¬ TableFull s) :
    ∃ i, s.client i < 0 ∧ acceptClient (-1) s = { s with
      client := Function.update s.client i (-1)
      allset := insert (-1) s.allset
      maxfd := if s.maxfd < -1 then -1 else s.maxfd
      maxi := if s.maxi < i then i else s.maxi } := by
  have hfound : firstVacant vacant s.client fdSetSize 0 ≠ fdSetSize :=
    fun hfull => hroom (tableFull_iff.mp hfull)
  refine ⟨_, vacant_of_found hfound, ?_⟩
  unfold acceptClient
  rw [if_neg hfound]
  rfl

/-- A failed `accept` leaves a table that lists the same connections. -/
theorem Tracked.acceptClient_failed {s : Select} (h : Tracked s) (hroom : ¬ TableFull s) :
    Tracked (Select.acceptClient (-1) s) := by
  obtain ⟨i, hi, hacc⟩ := Select.acceptClient_failed hroom
  rw [hacc]
  refine ⟨⟨?_, neg_one_le_maxi h.inv.maxi i, rfl, h.inv.listening, fun fd hfd => ?_⟩,
    fun fd hpos => ?_⟩
  · have hskip := h.inv.table.skip (e := -1) hi (by simp [vacant])
    apply hskip.mono
    show (s.maxi + 1).toNat ≤ ((if s.maxi < i then (i : ℤ) else s.maxi) + 1).toNat
    split <;> omega
  · have hmax : fd ≤ s.maxfd := h.inv.max fd hfd
    show fd ≤ if s.maxfd < -1 then -1 else s.maxfd
    split <;> omega
  · show fd ∈ insert (-1) s.allset ↔ _
    rw [Finset.mem_insert, h.watched fd hpos, or_iff_right (by omega)]

theorem Tracked.scanClients {s : Select} (h : Tracked s) (r : Round) (nready : ℤ) :
    Tracked (scanClients r nready s).1 :=
  scan_invariant (P := Tracked)
    (fun _ _ hready hs => hs.serveClient (not_lt.mp (of_decide_eq_true hready).1)) _ _ _ h

/-- What a round leaves of the records before it serves the clients, if it gets so far. -/
theorem Tracked.accepted {s : Select} (h : Tracked s) {r : Round} (hr : Answers s r)
    (hlisten : s.listenfd ∈ r.rset) (hroom : ¬ TableFull s) (hrunning : s.exited = none) :
    Tracked (Select.acceptClient r.connfd s) := by
  rcases hr.accept hlisten with hfail | ⟨hpos, hne, hnew⟩
  · rw [hfail]
    exact h.acceptClient_failed hroom
  · exact h.acceptClient hpos hnew hne hroom hrunning

theorem Tracked.round {s : Select} (h : Tracked s) {r : Round} (hr : Answers s r)
    (hback : s.exited = none) (hrunning : (round r s).1.exited = none) :
    Tracked (round r s).1 := by
  by_cases hfail : r.nready < 0
  · rw [Select.round, if_pos hfail] at hrunning
    cases hrunning
  by_cases hlisten : s.listenfd ∈ r.rset
  · have hroom : ¬ TableFull s := by
      intro hfull
      rw [(round_full hfail hlisten hfull).2] at hrunning
      cases hrunning
    have hacc := h.accepted hr hlisten hroom hback
    unfold Select.round
    rw [if_neg hfail, if_pos hlisten]
    simp only
    split
    · exact hacc
    · exact hacc.scanClients r _
  · unfold Select.round
    rw [if_neg hfail, if_neg hlisten]
    exact h.scanClients r _

theorem tracked_of_run {listenfd : ℤ} {h : List (Event Select Round)} {s : Select}
    (hrun : (server Answers listenfd).Run h s) : s.exited = none → Tracked s := by
  refine hrun.invariant_on (C := fun s => s.exited = none) (I := Tracked) ?_ ?_ ?_
  · intro s r s' hstep _
    exact hstep.1
  · rintro s rfl -
    exact start_tracked listenfd
  · rintro s r s' - ⟨hback, hr, rfl⟩ - hrunning hinv
    exact hinv.round hr hback hrunning

/-! ## The round -/

/-- The scan begins with the records in order, the occupied slots as they were and every
connection that was reported still open. -/
theorem Tracked.admitted {s : Select} (h : Tracked s) {r : Round} (hr : Answers s r)
    (hrunning : s.exited = none) (hn : 0 ≤ r.nready)
    (hroom : ¬ (s.listenfd ∈ r.rset ∧ TableFull s)) :
    Tracked (admitted r s) ∧ (admitted r s).exited = none ∧
      (admitted r s).listenfd = s.listenfd ∧ r.rset ⊆ (tidy (admitted r s)).allset ∧
      (∀ i, 0 ≤ s.client i → (admitted r s).client i = s.client i) ∧
      ∀ fd ∈ r.rset, fd ∈ (admitted r s).connections ↔ fd ∈ s.connections := by
  obtain ⟨hsub, hpos, -⟩ := hr.select hn
  have hreported : r.rset ⊆ (tidy s).allset := by
    intro fd hfd
    exact Finset.mem_insert.mpr ((h.watched fd (hpos fd hfd)).1 (hsub hfd))
  unfold Select.admitted
  by_cases hlisten : s.listenfd ∈ r.rset
  · have hfree : ¬ TableFull s := fun hfull => hroom ⟨hlisten, hfull⟩
    have hacc := h.accepted hr hlisten hfree hrunning
    rw [if_pos hlisten]
    rcases hr.accept hlisten with hfail | ⟨hpos', hne, hnew⟩
    · rw [hfail] at hacc ⊢
      obtain ⟨i, hi, heq⟩ := Select.acceptClient_failed hfree
      rw [heq] at hacc ⊢
      refine ⟨hacc, hrunning, rfl, hreported, fun j hj => ?_, fun fd _ => Iff.rfl⟩
      have hji : j ≠ i := by
        rintro rfl
        exact absurd hj (not_le.mpr hi)
      exact Function.update_of_ne hji ..
    · obtain ⟨hexit, hfd, -, hconn, hkept⟩ := acceptClient_room hfree hpos'
      refine ⟨hacc, hexit.trans hrunning, hfd, ?_, hkept, fun fd hmem => ?_⟩
      · show r.rset ⊆ insert (Select.acceptClient r.connfd s).listenfd
          (Select.acceptClient r.connfd s).connections
        rw [hfd, hconn, Finset.insert_comm]
        exact hreported.trans (Finset.subset_insert _ _)
      · have hold : fd ≠ r.connfd := by
          rintro rfl
          exact (Finset.mem_insert.mp (hreported hmem)).elim hne hnew
        rw [hconn, Finset.mem_insert, or_iff_right hold]
  · rw [if_neg hlisten]
    exact ⟨h, hrunning, rfl, hreported, fun _ _ => rfl, fun _ _ => Iff.rfl⟩

section Round

variable {s : Select} {r : Round} (h : Tracked s) (hr : Answers s r) (hback : s.exited = none)
  (hn : 0 ≤ r.nready) (hroom : ¬ (s.listenfd ∈ r.rset ∧ TableFull s))

include h hr hback hn hroom

/-- The round then serves the slots that are ready. -/
theorem Tracked.round_eq :
    Select.round r s =
      ((serveAll (Select.serveClient r.read) (fun _ => false)
          (Select.readySlots r.rset (Select.admitted r s)) (Select.admitted r s)).1,
        (if s.listenfd ∈ r.rset then [.accept] else []) ++
          (serveAll (Select.serveClient r.read) (fun _ => false)
            (Select.readySlots r.rset (Select.admitted r s)) (Select.admitted r s)).2) := by
  obtain ⟨hinv, hexit, hfd, hsub, -⟩ := h.admitted hr hback hn hroom
  exact Select.round_eq hn hexit (hinv.inv.left_eq hfd hsub (hr.select hn).2.2)

/-- The slots that are ready are those that were occupied before the round, by a connection that
was reported. -/
theorem Tracked.mem_readySlots {i : ℕ} : i ∈ Select.readySlots r.rset (Select.admitted r s) ↔
    0 ≤ s.client i ∧ s.client i ∈ r.rset := by
  obtain ⟨hinv, -, -, -, hkept, hconn⟩ := h.admitted hr hback hn hroom
  rw [(hinv.readySlots r.rset).2.1]
  constructor
  · rintro ⟨hpos, hfd⟩
    obtain ⟨-, j, hj⟩ := h.mem_connections.mp ((hconn _ hfd).1 (hinv.opened hpos))
    have hsame : (Select.admitted r s).client j = (Select.admitted r s).client i := by
      rw [hkept j (by rw [hj]; exact hpos), hj]
    obtain rfl := hinv.distinct (by rw [hsame]; exact hpos) hsame
    exact ⟨by rw [hj]; exact hpos, by rw [hj]; exact hfd⟩
  · rintro ⟨hpos, hfd⟩
    rw [hkept i hpos]
    exact ⟨hpos, hfd⟩

/-- The calls of the round are those of the services. -/
theorem Tracked.round_calls :
    (Select.round r s).2 = (if s.listenfd ∈ r.rset then [.accept] else []) ++
      services s.client r.read (Select.readySlots r.rset (Select.admitted r s)) := by
  obtain ⟨hinv, -, -, -, hkept, -⟩ := h.admitted hr hback hn hroom
  rw [h.round_eq hr hback hn hroom, serveAll_calls r.read _ (hinv.readySlots r.rset).1.of_map]
  refine congrArg _ (List.flatMap_congr fun i hi => ?_)
  rw [hkept i ((h.mem_readySlots hr hback hn hroom).1 hi).1]

/-- The round reads from the connections that were reported. -/
theorem Tracked.mem_readsOf_round {fd : ℤ} :
    fd ∈ readsOf (Select.round r s).2 ↔ fd ∈ r.rset ∧ fd ∈ s.connections := by
  have haccept : readsOf (if s.listenfd ∈ r.rset then [.accept] else []) = [] := by
    split <;> rfl
  rw [h.round_calls hr hback hn hroom, readsOf_append, readsOf_services, haccept,
    List.nil_append, List.mem_map, h.mem_connections]
  simp only [h.mem_readySlots hr hback hn hroom]
  constructor
  · rintro ⟨i, ⟨hpos, hfd⟩, rfl⟩
    exact ⟨hfd, hpos, i, rfl⟩
  · rintro ⟨hfd, hpos, i, rfl⟩
    exact ⟨i, ⟨hpos, hfd⟩, rfl⟩

theorem Tracked.round_exited : (Select.round r s).1.exited = none := by
  obtain ⟨-, hexit, -⟩ := h.admitted hr hback hn hroom
  rw [h.round_eq hr hback hn hroom]
  exact (serveAll_exited r.read _ _).trans hexit

end Round

/-- The accept part of a round leaves the connections of the table, the watched set and the open
descriptors as they are and does not put `-1` into an `fd_set`, and the round serves the other
descriptors that are ready and goes back to `select`. -/
structure Harmless (s : Select) (r : Round) : Prop where
  table : ∀ fd, 0 ≤ fd →
    ((∃ i, (acceptClient r.connfd s).client i = fd) ↔ ∃ i, s.client i = fd)
  opened : (acceptClient r.connfd s).connections = s.connections
  watched : (acceptClient r.connfd s).allset = s.allset
  registers : .set (-1) ∉ roundOps r s
  serves : ∀ fd ∈ s.connections, fd ∈ r.rset → fd ∈ readsOf (round r s).2
  continues : (round r s).1.exited = none

/-- With a free slot `-1` goes to `FD_SET`; without one the server exits. -/
theorem not_harmless {s : Select} {r : Round} (hn : 0 ≤ r.nready) (hlisten : s.listenfd ∈ r.rset)
    (hfail : r.connfd = -1) (hback : s.exited = none) : ¬ Harmless s r := by
  intro hharmless
  by_cases hfull : TableFull s
  · have hexit := (round_full (not_lt.mpr hn) hlisten hfull).2
    rw [hharmless.continues] at hexit
    cases hexit
  · obtain ⟨i, -, hacc⟩ := Select.acceptClient_failed hfull
    have hexit : (acceptClient (-1) s).exited = none := by
      rw [hacc]
      exact hback
    apply hharmless.registers
    unfold roundOps
    rw [if_neg (not_lt.mpr hn), if_pos hlisten, hfail]
    simp only [hexit]
    exact List.mem_cons_of_mem _ List.mem_cons_self

/-- **What a failed `accept` does not harm in the `select` server**, as long as a slot is free:
the table and the open descriptors, and the service of the clients that are ready. -/
theorem Tracked.survives {s : Select} (h : Tracked s) {r : Round} (hr : Answers s r)
    (hn : 0 ≤ r.nready) (hlisten : s.listenfd ∈ r.rset) (hfail : r.connfd = -1)
    (hback : s.exited = none) (hroom : ¬ TableFull s) :
    (∀ fd, 0 ≤ fd → ((∃ i, (Select.acceptClient r.connfd s).client i = fd) ↔
        ∃ i, s.client i = fd)) ∧
      (Select.acceptClient r.connfd s).connections = s.connections ∧
      (∀ fd ∈ s.connections, fd ∈ r.rset → fd ∈ readsOf (Select.round r s).2) ∧
      (Select.round r s).1.exited = none := by
  have hfree : ¬ (s.listenfd ∈ r.rset ∧ TableFull s) := fun hfull => hroom hfull.2
  have hopened : (Select.acceptClient r.connfd s).connections = s.connections := by
    obtain ⟨i, -, hacc⟩ := Select.acceptClient_failed hroom
    rw [hfail, hacc]
  refine ⟨fun fd hpos => ?_, hopened, fun fd hopen hfd => ?_, h.round_exited hr hback hn hfree⟩
  · have hafter : fd ∈ _ ↔ _ := (h.accepted hr hlisten hroom hback).mem_connections
    rw [hopened, h.mem_connections] at hafter
    exact (and_congr_right_iff.mp hafter hpos).symm
  · exact (h.mem_readsOf_round hr hback hn hfree).2 ⟨hfd, hopen⟩

/-- A client connects. -/
theorem answers_connected : ∃ h, (server Answers 3).Run h (connected 1) := by
  obtain ⟨h, hrun, -⟩ := run_connected Answers (n := 1) (by decide) fun m hm => by
    obtain rfl : m = 0 := by omega
    exact ⟨by decide, by decide, fun _ => trivial⟩
  exact ⟨h, hrun⟩

end Select

namespace Epoll

/-- The descriptors that the accept part passes to `epoll_ctl`. -/
def acceptCtl (connfd : ℤ) (s : Epoll) : List ℤ :=
  if firstVacant vacant s.client maxOpenFileNum 0 = maxOpenFileNum then [] else [connfd]

/-- The event of the listening socket leaves the connections of the table, the interest set and
the open descriptors as they are and does not pass `-1` to `epoll_ctl`, and the server goes on
with the rest of the batch. -/
structure Harmless (connfd : ℤ) (s s' : Epoll) : Prop where
  table : ∀ fd, 0 ≤ fd → ((∃ j, s'.client j = fd) ↔ ∃ j, s.client j = fd)
  opened : s'.connections = s.connections
  watched : s'.interest = s.interest
  registers : -1 ∉ acceptCtl connfd s
  continues : s'.exited = none ∧ s'.events.drop s'.i = s.events.drop (s.i + 1)

/-- The server exits after a failed `accept`, whatever its table holds. -/
theorem acceptClient_failed (s : Epoll) : (acceptClient (-1) s).exited = some (-4) := by
  unfold acceptClient
  simp only
  split
  · rfl
  · have hneg : (-1 : ℤ) < 0 := by decide
    simp only [hneg, true_or, if_true]

theorem not_harmless {s s' : Epoll} {e : EpollEvent} (he : e ∈ s.events[s.i]?)
    (hlisten : e.fd = s.listenfd) {read : ReadResult}
    (hstep : advance s (.event (-1) read) = some s') : ¬ Harmless (-1) s s' := by
  intro hharmless
  unfold advance at hstep
  rw [Option.mem_def.mp he] at hstep
  simp only [Option.ite_none_right_eq_some, Option.some.injEq] at hstep
  obtain ⟨-, rfl⟩ := hstep
  have hexit := hharmless.continues.1
  simp only [serveEvent, if_pos hlisten, acceptClient_failed] at hexit
  cases hexit

end Epoll

/-- **A failed `accept` is harmless in no state of the `select` server and in none of the
`epoll` server**, whatever their environments. -/
theorem failed_accept_never_harmless (listenfd epollfd : ℕ) :
    (∀ (h : List (Event Select Select.Round)) (s : Select),
      (Select.server (fun _ _ => True) listenfd).Run h s → s.exited = none →
      ∀ r : Select.Round, 0 ≤ r.nready → s.listenfd ∈ r.rset → r.connfd = -1 →
        ¬ Select.Harmless s r) ∧
    ∀ (h : List (Event Epoll Epoll.Label)) (s : Epoll),
      (System.ofStep (Epoll.start listenfd epollfd) Epoll.advance).Run h s →
      ∀ e ∈ s.events[s.i]?, e.fd = s.listenfd → ∀ (read : ReadResult) (s' : Epoll),
        Epoll.advance s (.event (-1) read) = some s' → ¬ Epoll.Harmless (-1) s s' := by
  refine ⟨?_, ?_⟩
  · intro h s _ hback r hn hlisten hfail
    exact Select.not_harmless hn hlisten hfail hback
  · intro h s _ e he hlisten read s' hstep
    exact Epoll.not_harmless he hlisten hstep

/-- The round in which a client has sent a byte and `accept` fails. -/
def Select.aborting : Select.Round := ⟨2, {3, 4}, -1, fun _ => .data [97]⟩

/-- The batch in which `accept` fails and a client has sent a byte. -/
def Epoll.aborting : List Epoll.Label := [.epollWait (some [⟨epollIn, 3⟩, ⟨epollIn, 5⟩])]

theorem Epoll.run_aborting : ∃ h s,
    (System.ofStep (Epoll.start 3 4) Epoll.advance).Run h s ∧ s.exited = none ∧
      s.events[s.i]? = some ⟨epollIn, 3⟩ ∧ s.listenfd = 3 ∧ s.connections = {5} := by
  obtain ⟨h, s, hrun, htest⟩ := System.exists_run_of_exec (Epoll.start 3 4) Epoll.advance
    (Epoll.connect 5 ++ Epoll.aborting)
    (fun _ s => decide (s.exited = none ∧ s.events[s.i]? = some ⟨epollIn, 3⟩ ∧
      s.listenfd = 3 ∧ s.connections = {5})) (by decide)
  exact ⟨h, s, hrun, of_decide_eq_true htest⟩

theorem Epoll.advance_aborting {s : Epoll} (hback : s.exited = none)
    (he : s.events[s.i]? = some ⟨epollIn, 3⟩) :
    ∃ s', Epoll.advance s (.event (-1) .eof) = some s' := by
  unfold Epoll.advance
  rw [he]
  exact ⟨_, if_pos hback⟩

theorem failed_accept_never_harmless_client :
    (∃ s r, r.rset = {3, 4} ∧ s.connections = {4} ∧ ¬ Select.Harmless s r) ∧
      ∃ s s', s.connections = {5} ∧ ¬ Epoll.Harmless (-1) s s' := by
  obtain ⟨hselect, hepoll⟩ := failed_accept_never_harmless 3 4
  refine ⟨?_, ?_⟩
  · obtain ⟨h, hrun, -⟩ := Select.run_connected (fun _ _ => True) (n := 1) (by decide)
      fun _ _ => trivial
    exact ⟨Select.connected 1, Select.aborting, rfl, rfl,
      hselect h _ hrun rfl _ (by decide) (by decide) rfl⟩
  · obtain ⟨h, s, hrun, hback, he, hlisten, hconn⟩ := Epoll.run_aborting
    obtain ⟨s', hstep⟩ := Epoll.advance_aborting hback he
    exact ⟨s, s', hconn, hepoll h s hrun _ he hlisten.symm _ s' hstep⟩

/-- While a client has something to read, `accept` fails. -/
theorem failed_accept_harms :
    (¬ ∀ (listenfd : ℤ) (h : List (Event Select Select.Round)) (s : Select),
      (Select.server Select.Answers listenfd).Run h s → s.exited = none →
      ∀ r : Select.Round, Select.Answers s r → 0 ≤ r.nready → s.listenfd ∈ r.rset →
        r.connfd = -1 → Select.Harmless s r) ∧
    ¬ ∀ (listenfd epollfd : ℕ) (h : List (Event Epoll Epoll.Label)) (s : Epoll),
      (System.ofStep (Epoll.start listenfd epollfd) Epoll.advance).Run h s →
      ∀ e ∈ s.events[s.i]?, e.fd = s.listenfd → ∀ (read : ReadResult) (s' : Epoll),
        Epoll.advance s (.event (-1) read) = some s' → Epoll.Harmless (-1) s s' := by
  refine ⟨fun hclaim => ?_, fun hclaim => ?_⟩
  · obtain ⟨h, hrun⟩ := Select.answers_connected
    have hr : Select.Answers (Select.connected 1) Select.aborting :=
      ⟨by decide, fun _ => .inl rfl, fun _ => ⟨by decide, by decide⟩⟩
    refine Select.not_harmless (by decide) (by decide) rfl rfl
      (hclaim 3 h _ hrun rfl _ hr (by decide) (by decide) rfl)
  · obtain ⟨h, s, hrun, hback, he, hlisten, -⟩ := Epoll.run_aborting
    obtain ⟨s', hstep⟩ := Epoll.advance_aborting hback he
    exact Epoll.not_harmless he hlisten.symm hstep
      (hclaim 3 4 h s hrun _ he hlisten.symm _ s' hstep)

end LinuxExercise.Servers
