import LinuxExercise.Servers.Poll

/-!
# The table of the `poll` server when calls fail

`client[]` is edited on three occasions: a successful `accept`, a failed one (the server does
not look at its result and stores `-1` in a free entry), and a `read` that finds a connection
finished or reset.  Nothing is assumed about what `poll` reports, so a scan may read from
entries that are not ready, from the entry just filled and from the listening socket.

`poll_table` describes the table at every return to `poll`.  Free entries hold exactly `-1`,
which is what makes storing the result of a failed `accept` harmless.
-/

namespace LinuxExercise.Servers.Poll

open SlotTable

/-- `accept` fails or returns a descriptor that is not open; nothing else is assumed. -/
def AcceptsFresh (s : Poll) (r : Round) : Prop :=
  r.connfd = -1 ∨ 0 ≤ r.connfd ∧ r.connfd ≠ s.listenfd ∧ r.connfd ∉ s.connections

/-! ## Free entries -/

/-- An entry without a descriptor holds `-1`, and `maxi` is an index of the array. -/
structure Slots (s : Poll) : Prop where
  free : ∀ i, -1 ≤ (s.client i).fd
  maxi : s.maxi < maxOpenFileNum

theorem start_slots (listenfd : ℕ) (memory : ℕ → PollFd) : Slots (start listenfd memory) where
  free i := by
    unfold start
    simp only
    split
    · exact (by decide : (-1 : ℤ) ≤ 0).trans (Int.natCast_nonneg _)
    · exact le_rfl
  maxi := (by decide : (0 : ℤ) < maxOpenFileNum)

theorem neg_one_le_update {client : ℕ → PollFd} (h : ∀ j, -1 ≤ (client j).fd) {p : PollFd}
    (hp : -1 ≤ p.fd) (i j : ℕ) : -1 ≤ (Function.update client i p j).fd := by
  by_cases hji : j = i
  · rw [hji, Function.update_self]
    exact hp
  · rw [Function.update_of_ne hji]
    exact h j

theorem Slots.poll {s : Poll} (h : Slots s) (revents : ℕ → BitVec 16) :
    Slots (poll revents s) where
  free i := (poll_client_fd revents s i).symm ▸ h.free i
  maxi := h.maxi

theorem Slots.acceptClient {s : Poll} (h : Slots s) {connfd : ℤ} (hfd : -1 ≤ connfd) :
    Slots (acceptClient connfd s) := by
  have hle : firstVacant (fun p : PollFd => vacant p.fd) s.client maxOpenFileNum 0 ≤
      0 + maxOpenFileNum := firstVacant_le maxOpenFileNum 0
  unfold Poll.acceptClient
  simp only
  split
  · exact ⟨h.free, h.maxi⟩
  · next hroom =>
    generalize firstVacant (fun p : PollFd => vacant p.fd) s.client maxOpenFileNum 0 = i at *
    refine ⟨neg_one_le_update h.free hfd i, ?_⟩
    have hmaxi := h.maxi
    simp only
    split <;> omega

theorem Slots.serveClient {s : Poll} (h : Slots s) (read : ℕ → ReadResult) (i : ℕ) :
    Slots (serveClient read i s).1 := by
  have hclose : Slots (closeClient i s) := ⟨neg_one_le_update h.free le_rfl i, h.maxi⟩
  unfold Poll.serveClient
  simp only
  split
  · exact hclose
  · exact hclose
  · exact ⟨h.free, h.maxi⟩
  · exact h

theorem Slots.round {s : Poll} (h : Slots s) {r : Round} (hfd : -1 ≤ r.connfd) :
    Slots (round r s).1 := by
  have hscan : ∀ {s' : Poll} (nready : ℤ), Slots s' → Slots (scanClients r.read nready s').1 :=
    fun nready hs => scan_invariant (P := Slots)
      (fun _ i _ hs' => hs'.serveClient r.read i) _ _ _ hs
  have hpoll := h.poll r.revents
  have hacc := hpoll.acceptClient hfd
  unfold Poll.round
  simp only
  split
  · exact ⟨h.free, h.maxi⟩
  split
  · split
    · exact hacc
    · exact hscan _ hacc
  · exact hscan _ hpoll

theorem AcceptsFresh.neg_one_le {s : Poll} {r : Round} (hr : AcceptsFresh s r) :
    -1 ≤ r.connfd := by
  rcases hr with hfail | ⟨hpos, -⟩
  · exact hfail.ge
  · omega

/-- A failed `accept` stores `-1` where `-1` was. -/
theorem Slots.acceptClient_failed {s : Poll} (h : Slots s) (i : ℕ) :
    ((Poll.acceptClient (-1) s).client i).fd = (s.client i).fd := by
  unfold Poll.acceptClient
  simp only
  split
  · rfl
  · next hroom =>
    have hslot := vacant_of_found hroom
    generalize firstVacant (fun p : PollFd => vacant p.fd) s.client maxOpenFileNum 0 = j at hslot
    by_cases hij : i = j
    · have hfree := h.free j
      have hneg : (s.client j).fd < 0 := hslot
      have hfd : (s.client j).fd = -1 := by omega
      simp only [hij, Function.update_self, hfd]
    · simp only [Function.update_of_ne hij]

/-! ## The exit for want of an entry -/

/-- A scan can only end the server through a failed `read`. -/
theorem scanClients_exited {s : Poll} (read : ℕ → ReadResult) (nready : ℤ)
    (hs : s.exited ≠ some (-2)) : (scanClients read nready s).1.exited ≠ some (-2) := by
  refine scan_invariant (P := fun s : Poll => s.exited ≠ some (-2)) (fun s' i _ hs' => ?_) _ _ _ hs
  unfold serveClient
  simp only
  split
  · exact hs'
  · exact hs'
  · simp
  · exact hs'

/-- Every entry holds the listening socket or an open connection. -/
def AllOpen (s : Poll) : Prop :=
  ∀ i < maxOpenFileNum, (s.client i).fd = s.listenfd ∨ (s.client i).fd ∈ s.connections

theorem PollInv.allOpen {s : Poll} (h : PollInv s)
    (hfull : firstVacant (fun p : PollFd => vacant p.fd) s.client maxOpenFileNum 0 =
      maxOpenFileNum) : AllOpen s := by
  intro i hi
  have hocc : ¬ vacant (s.client i).fd := firstVacant_eq_iff.mp hfull i hi
  have hmem := (h.table.mem_iff (s.client i).fd).2 ⟨hocc, i, rfl⟩
  exact Set.mem_insert_iff.mp hmem

theorem PollInv.round_exited {s : Poll} (h : PollInv s) (hrunning : s.exited = none)
    {r : Round} (hexit : (Poll.round r s).1.exited = some (-2)) :
    AllOpen (Poll.round r s).1 := by
  have hpoll := h.poll r.revents
  have hexited : (Poll.poll r.revents s).exited ≠ some (-2) := by
    show s.exited ≠ _
    rw [hrunning]
    exact nofun
  unfold Poll.round at hexit ⊢
  simp only at hexit ⊢
  by_cases hfail : r.nready < 0
  · rw [if_pos hfail] at hexit
    exact absurd hexit (by simp)
  rw [if_neg hfail] at hexit ⊢
  by_cases hin : ((Poll.poll r.revents s).client 0).revents &&& pollIn ≠ 0
  · rw [if_pos hin] at hexit ⊢
    by_cases hroom : firstVacant (fun p : PollFd => vacant p.fd)
        (Poll.poll r.revents s).client maxOpenFileNum 0 = maxOpenFileNum
    · have hopen := hpoll.allOpen hroom
      have hacc : Poll.acceptClient r.connfd (Poll.poll r.revents s) =
          { Poll.poll r.revents s with
            connections := if r.connfd < 0 then s.connections
              else insert r.connfd s.connections
            exited := some (-2) } := by
        rw [Poll.acceptClient, if_pos hroom]
        rfl
      rw [hacc, if_pos (.inl rfl)]
      intro i hi
      rcases hopen i hi with hlisten | hmem
      · exact .inl hlisten
      · right
        simp only
        split
        · exact hmem
        · exact Finset.mem_insert_of_mem hmem
    · have hacc : (Poll.acceptClient r.connfd (Poll.poll r.revents s)).exited ≠ some (-2) := by
        rw [Poll.acceptClient, if_neg hroom]
        exact hexited
      split at hexit
      · exact absurd hexit hacc
      · exact absurd hexit (Poll.scanClients_exited r.read _ hacc)
  · rw [if_neg hin] at hexit
    exact absurd hexit (Poll.scanClients_exited r.read _ hexited)

/-! ## What a round does to an occupied entry -/

/-- An entry that had a descriptor still has it, or it is `-1` and that descriptor was
closed. -/
def KeepsOrCloses (s s' : Poll) (calls : List Call) : Prop :=
  ∀ i, 0 ≤ (s.client i).fd → (s'.client i).fd = (s.client i).fd ∨
    (s'.client i).fd = -1 ∧ Call.close (s.client i).fd ∈ calls

theorem KeepsOrCloses.of_eq {s s' : Poll} (calls : List Call)
    (h : ∀ i, 0 ≤ (s.client i).fd → (s'.client i).fd = (s.client i).fd) :
    KeepsOrCloses s s' calls :=
  fun i hi => .inl (h i hi)

/-- The service of entry `i` closes the descriptor of entry `i` or leaves the entry alone. -/
theorem serveClient_keepsOrCloses (read : ℕ → ReadResult) (i : ℕ) (s : Poll) :
    KeepsOrCloses s (serveClient read i s).1 (serveClient read i s).2 := by
  intro j hj
  by_cases hji : j = i
  · have hclosed : ((closeClient i s).client i).fd = -1 := by
      simp only [closeClient, Function.update_self]
    unfold serveClient
    rw [hji]
    simp only
    split
    · exact .inr ⟨hclosed, by simp⟩
    · exact .inr ⟨hclosed, by simp⟩
    · exact .inl rfl
    · exact .inl rfl
  · rw [serveClient_other read hji]
    exact .inl rfl

theorem closeClient_free {s : Poll} (i : ℕ) {j : ℕ} (hj : (s.client j).fd = -1) :
    ((closeClient i s).client j).fd = -1 := by
  by_cases hji : j = i
  · simp only [closeClient, hji, Function.update_self]
  · simp only [closeClient, Function.update_of_ne hji, hj]

theorem KeepsOrCloses.serveClient {s₀ s : Poll} {calls : List Call}
    (h : KeepsOrCloses s₀ s calls) (read : ℕ → ReadResult) (i : ℕ) :
    KeepsOrCloses s₀ (serveClient read i s).1 (calls ++ (serveClient read i s).2) := by
  intro j hj
  have hone := serveClient_keepsOrCloses read i s j
  rcases h j hj with hsame | ⟨hclosed, hmem⟩
  · rw [hsame] at hone
    rcases hone hj with hkept | ⟨hneg, hcall⟩
    · exact .inl hkept
    · exact .inr ⟨hneg, List.mem_append_right _ hcall⟩
  · refine .inr ⟨?_, List.mem_append_left _ hmem⟩
    unfold Poll.serveClient
    simp only
    split
    · exact closeClient_free i hclosed
    · exact closeClient_free i hclosed
    · exact hclosed
    · exact hclosed

/-- `accept` only writes to a free entry. -/
theorem acceptClient_occupied (connfd : ℤ) {s : Poll} {i : ℕ} (hi : 0 ≤ (s.client i).fd) :
    (acceptClient connfd s).client i = s.client i := by
  unfold acceptClient
  simp only
  split
  · rfl
  · next hroom =>
    have hslot := vacant_of_found hroom
    generalize firstVacant (fun p : PollFd => vacant p.fd) s.client maxOpenFileNum 0 = j at hslot
    have hij : i ≠ j := by
      rintro rfl
      exact absurd hi (not_le.mpr hslot)
    exact Function.update_of_ne hij ..

theorem round_keepsOrCloses (r : Round) (s : Poll) :
    KeepsOrCloses s (round r s).1 (round r s).2 := by
  have hpoll : ∀ i, ((poll r.revents s).client i).fd = (s.client i).fd :=
    poll_client_fd r.revents s
  have hacc : ∀ i, 0 ≤ (s.client i).fd →
      ((acceptClient r.connfd (poll r.revents s)).client i).fd = (s.client i).fd := by
    intro i hi
    rw [acceptClient_occupied r.connfd ((hpoll i).symm ▸ hi), hpoll]
  have hscan : ∀ (nready : ℤ) (s' : Poll) (calls : List Call), KeepsOrCloses s s' calls →
      KeepsOrCloses s (scanClients r.read nready s').1
        (calls ++ (scanClients r.read nready s').2) :=
    fun nready _ _ hs => scan_ledger (P := KeepsOrCloses s)
      (fun _ i _ _ hs' => hs'.serveClient r.read i) _ _ _ _ hs
  unfold round
  simp only
  split
  · exact .of_eq _ fun _ _ => rfl
  split
  · split
    · exact .of_eq _ hacc
    · exact hscan _ _ [.accept] (.of_eq _ hacc)
  · exact hscan _ _ [] (.of_eq _ fun i _ => hpoll i)

/-! ## The table at every return to `poll` -/

/-- `client[0]` is the listening socket, and the other entries up to `maxi` list the open
connections. -/
structure Table (s : Poll) : Prop where
  listening : (s.client 0).fd = s.listenfd
  distinct : ∀ i j, 1 ≤ i → 1 ≤ j → 0 ≤ (s.client i).fd →
    (s.client i).fd = (s.client j).fd → i = j
  connected : ∀ fd, fd ∈ s.connections ↔
    0 ≤ fd ∧ ∃ i : ℕ, 1 ≤ i ∧ (i : ℤ) ≤ s.maxi ∧ (s.client i).fd = fd
  beyond : ∀ i : ℕ, s.maxi < i → (s.client i).fd = -1
  maxi : s.maxi < maxOpenFileNum

theorem PollInv.lists {s : Poll} (h : PollInv s) (hslots : Slots s) : Table s := by
  refine ⟨h.listening, fun i j _ _ hi hij => ?_, fun fd => ?_, fun i hi => ?_, hslots.maxi⟩
  · exact h.table.distinct i j (not_lt.mpr hi) hij
  · constructor
    · intro hmem
      obtain ⟨hpos, i, rfl⟩ := (h.table.mem_iff fd).1 (Set.mem_insert_of_mem _ hmem)
      have hbelow := h.table.below i hpos
      refine ⟨not_lt.mp hpos, i, Nat.one_le_iff_ne_zero.2 ?_, by omega, rfl⟩
      rintro rfl
      exact h.listenfd.2 (h.listening ▸ hmem)
    · rintro ⟨hpos, i, hi, -, rfl⟩
      have hlisted := (h.table.mem_iff (s.client i).fd).2 ⟨not_lt.mpr hpos, i, rfl⟩
      rcases Set.mem_insert_iff.mp hlisted with hlisten | hmem
      · -- Only `client[0]` holds the listening socket.
        have hzero := h.table.distinct i 0 (not_lt.mpr hpos) (hlisten.trans h.listening.symm)
        omega
      · exact hmem
  · have hfree : (s.client i).fd < 0 := by
      by_contra hocc
      have hbelow := h.table.below i hocc
      omega
    have hle := hslots.free i
    omega

theorem slots_of_run {listenfd : ℕ} {memory : ℕ → PollFd} {h : List (Event Poll Round)}
    {s : Poll} (hrun : (server AcceptsFresh listenfd memory).Run h s) : Slots s := by
  refine hrun.invariant (I := Slots) ?_ ?_
  · rintro s rfl
    exact start_slots listenfd memory
  · rintro s r s' - ⟨-, hr, rfl⟩ hslots
    exact hslots.round hr.neg_one_le

theorem pollInv_of_freshRun {listenfd : ℕ} {memory : ℕ → PollFd} {h : List (Event Poll Round)}
    {s : Poll} (hrun : (server AcceptsFresh listenfd memory).Run h s) :
    s.exited = none → PollInv s := by
  refine hrun.invariant_on (C := fun s => s.exited = none) (I := PollInv) ?_ ?_ ?_
  · intro s r s' hstep _
    exact hstep.1
  · rintro s rfl -
    exact start_inv listenfd memory
  · rintro s r s' - ⟨-, hr, rfl⟩ - hrunning hinv
    exact hinv.round hr hrunning

/-- **The table of the `poll` server survives failing calls**: whatever `poll` reports and the
`read`s return, the table lists the open connections at every return to `poll`, a failed
`accept` leaves every descriptor in it, a round takes a descriptor from it only by closing it,
and the server gives up for want of an entry only when every entry is in use. -/
theorem poll_table (listenfd : ℕ) (memory : ℕ → PollFd) (h : List (Event Poll Round)) (s : Poll)
    (hrun : (server AcceptsFresh listenfd memory).Run h s) :
    (s.exited = none → Table s ∧
      (∀ revents i, ((acceptClient (-1) (poll revents s)).client i).fd = (s.client i).fd) ∧
      ∀ r, KeepsOrCloses s (round r s).1 (round r s).2) ∧
    (∀ (s' : Poll) (i j : ℕ), j ≠ i → (closeClient i s').client j = s'.client j) ∧
    (s.exited = some (-2) → AllOpen s) := by
  have hslots := slots_of_run hrun
  refine ⟨fun hback => ⟨?_, fun revents i => ?_, fun r => round_keepsOrCloses r s⟩,
    fun s' i j hji => Function.update_of_ne hji .., fun hexit => ?_⟩
  · exact (pollInv_of_freshRun hrun hback).lists hslots
  · exact ((hslots.poll revents).acceptClient_failed i).trans (poll_client_fd revents s i)
  · cases hrun with
    | start hs =>
      rw [hs] at hexit
      cases hexit
    | step hr hs =>
      obtain ⟨hrunning, -, rfl⟩ := hs
      exact (pollInv_of_freshRun hr hrunning).round_exited hrunning hexit

/-- A client connects, its connection is reset, and the next `accept` fails. -/
theorem poll_table_reset_and_failed_accept :
    ∃ h s, (server AcceptsFresh 3 zeroMemory).Run h s ∧ h.length = 3 ∧ s.connections = ∅ ∧
      s.maxi = 1 ∧ Table s := by
  let r₁ : Round := ⟨1, fun i => if i = 0 then pollIn else 0, 4, fun _ => .eof⟩
  let r₂ : Round := ⟨1, fun i => if i = 1 then pollErr else 0, -1, fun _ => .error .econnreset⟩
  let r₃ : Round := ⟨1, fun i => if i = 0 then pollIn else 0, -1, fun _ => .eof⟩
  have hrun₁ := System.Run.step (M := server AcceptsFresh 3 zeroMemory) (System.Run.start rfl)
    (l := r₁) ⟨rfl, .inr (by decide), rfl⟩
  have hrun₂ := hrun₁.step (l := r₂) ⟨by decide, .inl rfl, rfl⟩
  have hrun₃ := hrun₂.step (l := r₃) ⟨by decide, .inl rfl, rfl⟩
  exact ⟨_, _, hrun₃, rfl, by decide, by decide,
    ((poll_table 3 zeroMemory _ _ hrun₃).1 (by decide)).1⟩

end LinuxExercise.Servers.Poll
