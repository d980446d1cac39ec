import LinuxExercise.Servers.FailedAccept

/-!
# The `select` server when a `read` fails

The server tells two outcomes of `read` apart, `0` and everything else.  The `poll` server has a
third branch, which closes a connection that was reset and exits on any other error.  Without it
the result `-1` goes into the echo: the conversion loop does nothing, and `write` is called with
the length that `-1` becomes as a `size_t`.  The connection stays in the table, and since it
stays readable the next round does the same.

`handles_reads_iff` says that a round deals with its reads as it should exactly when none of
them fails.
-/

namespace LinuxExercise.Servers.Select

open SlotTable

/-! ## What a round should make of its reads -/

/-- The outcome of `read` finishes the connection: end of file, or the peer has reset it. -/
def Finishes (r : ReadResult) : Prop := r = .eof ∨ r = .error .econnreset

/-- The round writes as many bytes as it has just read, which is at least one; it closes and
removes the clients whose reads finished the connection; and it leaves the others alone. -/
structure HandlesReads (s : Select) (r : Round) : Prop where
  counts : ∀ (fd : ℤ) (buf : List UInt8) (count : ℕ), .write fd buf count ∈ (round r s).2 →
    ∃ i, s.client i = fd ∧ fd ∈ readsOf (round r s).2 ∧ 0 < (r.read i).n ∧
      (count : ℤ) = (r.read i).n
  closed : ∀ i, 0 ≤ s.client i → s.client i ∈ readsOf (round r s).2 → Finishes (r.read i) →
    .close (s.client i) ∈ (round r s).2 ∧ (round r s).1.client i = -1 ∧
      s.client i ∉ (round r s).1.allset ∧ s.client i ∉ (round r s).1.connections
  kept : ∀ i, 0 ≤ s.client i →
    ¬ (s.client i ∈ readsOf (round r s).2 ∧ Finishes (r.read i)) →
    (round r s).1.client i = s.client i ∧ s.client i ∈ (round r s).1.allset ∧
      s.client i ∈ (round r s).1.connections

/-! ## What the services leave behind -/

/-- A service changes what belongs to its own slot, and only if `read` returned `0`. -/
theorem serveClient_state (read : ℕ → ReadResult) (i : ℕ) (s : Select) :
    (∀ j, (serveClient read i s).1.client j =
      if j = i ∧ (read i).n = 0 then -1 else s.client j) ∧
    (∀ fd, fd ∈ (serveClient read i s).1.allset ↔
      fd ∈ s.allset ∧ ¬ (s.client i = fd ∧ (read i).n = 0)) ∧
    ∀ fd, fd ∈ (serveClient read i s).1.connections ↔
      fd ∈ s.connections ∧ ¬ (s.client i = fd ∧ (read i).n = 0) := by
  unfold serveClient
  simp only
  split
  · next hzero =>
    refine ⟨fun j => ?_, fun fd => ?_, fun fd => ?_⟩
    · by_cases hj : j = i <;> simp [hj, hzero]
    · simp [hzero, and_comm, eq_comm]
    · simp [hzero, and_comm, eq_comm]
  · next hne => simp [hne]

/-- Serving distinct slots empties those from which `0` was read. -/
theorem serveAll_state (read : ℕ → ReadResult) {is : List ℕ} (s : Select) (hnodup : is.Nodup) :
    (∀ j, (serveAll (serveClient read) (fun _ => false) is s).1.client j =
      if j ∈ is ∧ (read j).n = 0 then -1 else s.client j) ∧
    (∀ fd, fd ∈ (serveAll (serveClient read) (fun _ => false) is s).1.allset ↔
      fd ∈ s.allset ∧ ∀ i ∈ is, ¬ (s.client i = fd ∧ (read i).n = 0)) ∧
    ∀ fd, fd ∈ (serveAll (serveClient read) (fun _ => false) is s).1.connections ↔
      fd ∈ s.connections ∧ ∀ i ∈ is, ¬ (s.client i = fd ∧ (read i).n = 0) := by
  induction is generalizing s with
  | nil => simp [serveAll]
  | cons i is ih =>
    obtain ⟨hi, hnodup'⟩ := List.nodup_cons.mp hnodup
    obtain ⟨hclient, hall, hconn⟩ := serveClient_state read i s
    obtain ⟨hclient', hall', hconn'⟩ := ih (serveClient read i s).1 hnodup'
    have hlater : ∀ j ∈ is, (serveClient read i s).1.client j = s.client j := by
      intro j hj
      have hji : j ≠ i := fun hji => hi (hji ▸ hj)
      exact serveClient_other read hji s
    have hrest : ∀ fd, (∀ j ∈ is, ¬ ((serveClient read i s).1.client j = fd ∧ (read j).n = 0)) ↔
        ∀ j ∈ is, ¬ (s.client j = fd ∧ (read j).n = 0) :=
      fun fd => forall₂_congr fun j hj => by rw [hlater j hj]
    have hcons : serveAll (serveClient read) (fun _ => false) (i :: is) s =
        ((serveAll (serveClient read) (fun _ => false) is (serveClient read i s).1).1,
          (serveClient read i s).2 ++
            (serveAll (serveClient read) (fun _ => false) is (serveClient read i s).1).2) := rfl
    rw [hcons]
    refine ⟨fun j => ?_, fun fd => ?_, fun fd => ?_⟩
    · simp only [hclient', hclient]
      by_cases hj : j = i
      · subst hj
        simp [hi]
      · simp [hj]
    · simp only [hall', hall, hrest, List.forall_mem_cons, and_assoc]
    · simp only [hconn', hconn, hrest, List.forall_mem_cons, and_assoc]

/-! ## The calls of the services -/

/-- What a service writes is what it has read, unless `read` failed. -/
theorem write_mem_service {sockfd fd : ℤ} {r : ReadResult} {buf : List UInt8} {count : ℕ}
    (hvalid : r.Valid) (hn : 0 ≤ r.n) (hmem : .write fd buf count ∈ service sockfd r) :
    fd = sockfd ∧ 0 < r.n ∧ (count : ℤ) = r.n := by
  unfold service at hmem
  split at hmem
  · simp at hmem
  · next hne =>
    obtain ⟨rfl, -, rfl⟩ : fd = sockfd ∧ buf = upperLoop r.n r.buf ∧ count = sizeT r.n := by
      simpa [echo] using hmem
    cases r with
    | data bytes => exact ⟨rfl, by omega, congrArg Nat.cast (sizeT_length hvalid)⟩
    | eof => exact absurd rfl hne
    | error e => exact absurd hn (by simp [ReadResult.n])

/-- A failed `read` is followed by a `write`. -/
theorem exists_write_of_failed {r : ReadResult} (hn : r.n < 0) (sockfd : ℤ) :
    ∃ buf count, .write sockfd buf count ∈ service sockfd r :=
  ⟨_, _, by
    unfold service
    rw [if_neg hn.ne]
    exact List.mem_cons_of_mem _ (List.mem_singleton_self _)⟩

theorem close_mem_service {r : ReadResult} (hn : r.n = 0) (sockfd : ℤ) :
    .close sockfd ∈ service sockfd r := by
  simp [service, hn]

/-- A connection is finished when `read` returns `0`, as long as it does not fail. -/
theorem finishes_iff {r : ReadResult} (hvalid : r.Valid) (hn : 0 ≤ r.n) :
    Finishes r ↔ r.n = 0 := by
  cases r with
  | data bytes => simp [Finishes, data_n_ne_zero hvalid]
  | eof => simp [Finishes, ReadResult.n]
  | error e => exact absurd hn (by simp [ReadResult.n])

/-! ## The round -/

/-- A round that serves nobody has no reads to deal with. -/
theorem handlesReads_of_idle {s : Select} (h : Tracked s) {r : Round}
    (hcalls : ∀ call ∈ (round r s).2, call = .accept)
    (hclient : (round r s).1.client = s.client) (hall : (round r s).1.allset = s.allset)
    (hconn : s.connections ⊆ (round r s).1.connections) : HandlesReads s r := by
  have hreads : ∀ fd, fd ∉ readsOf (round r s).2 := by
    intro fd hmem
    obtain ⟨call, hcall, hread⟩ := List.mem_filterMap.mp hmem
    rw [hcalls call hcall] at hread
    cases hread
  refine ⟨fun fd buf count hmem => ?_, fun i _ hread _ => absurd hread (hreads _),
    fun i hi _ => ?_⟩
  · cases hcalls _ hmem
  · have hopen := h.opened hi
    rw [hclient, hall]
    exact ⟨rfl, (h.watched _ hi).2 (.inr hopen), hconn hopen⟩

section Serving

variable {s : Select} {r : Round} (h : Tracked s) (hr : Answers s r) (hback : s.exited = none)
  (hn : 0 ≤ r.nready) (hroom : ¬ (s.listenfd ∈ r.rset ∧ TableFull s))

include h hr hback hn hroom

/-- The calls of the round other than `accept` serve a slot that is ready. -/
theorem Tracked.mem_round_calls {call : Call} (hcall : call ≠ .accept) :
    call ∈ (Select.round r s).2 ↔ ∃ i, (0 ≤ s.client i ∧ s.client i ∈ r.rset) ∧
      call ∈ service (s.client i) (r.read i) := by
  have haccept : call ∉ if s.listenfd ∈ r.rset then [.accept] else [] := by
    split
    · exact fun hmem => hcall (List.mem_singleton.mp hmem)
    · exact List.not_mem_nil
  rw [h.round_calls hr hback hn hroom, List.mem_append, or_iff_right haccept, services,
    List.mem_flatMap]
  simp only [h.mem_readySlots hr hback hn hroom]

/-- A client leaves the records if it is ready and `read` returns `0`, and stays otherwise. -/
theorem Tracked.round_records {i : ℕ} (hi : 0 ≤ s.client i) :
    ((Select.round r s).1.client i =
        if s.client i ∈ r.rset ∧ (r.read i).n = 0 then -1 else s.client i) ∧
      (s.client i ∈ (Select.round r s).1.allset ↔
        ¬ (s.client i ∈ r.rset ∧ (r.read i).n = 0)) ∧
      (s.client i ∈ (Select.round r s).1.connections ↔
        ¬ (s.client i ∈ r.rset ∧ (r.read i).n = 0)) := by
  obtain ⟨hinv, -, -, -, hkept, -⟩ := h.admitted hr hback hn hroom
  have hready := fun j => h.mem_readySlots hr hback hn hroom (i := j)
  rw [h.round_eq hr hback hn hroom]
  obtain ⟨hclient, hall, hconn⟩ :=
    serveAll_state r.read (Select.admitted r s) (hinv.readySlots r.rset).1.of_map
  have hopen : s.client i ∈ (Select.admitted r s).connections := by
    rw [← hkept i hi]
    exact hinv.opened (by rw [hkept i hi]; exact hi)
  -- No other slot holds the client.
  have hleaves : (∀ j ∈ Select.readySlots r.rset (Select.admitted r s),
      ¬ ((Select.admitted r s).client j = s.client i ∧ (r.read j).n = 0)) ↔
        ¬ (s.client i ∈ r.rset ∧ (r.read i).n = 0) := by
    constructor
    · rintro hall ⟨hfd, hzero⟩
      exact hall i ((hready i).2 ⟨hi, hfd⟩) ⟨hkept i hi, hzero⟩
    · rintro hstays j hj ⟨hjfd, hzero⟩
      obtain ⟨hpos, hfd⟩ := (hready j).1 hj
      rw [hkept j hpos] at hjfd
      obtain rfl := h.distinct hpos hjfd
      exact hstays ⟨hfd, hzero⟩
  refine ⟨?_, ?_, ?_⟩
  · rw [hclient, hkept i hi]
    refine if_congr (and_congr_left' ?_) rfl rfl
    rw [hready]
    exact and_iff_right hi
  · rw [hall, hleaves]
    exact and_iff_right ((hinv.watched _ hi).2 (.inr hopen))
  · rw [hconn, hleaves]
    exact and_iff_right hopen

/-- A round that serves its ready clients deals with their reads if and only if none fails. -/
theorem handlesReads_of_room :
    HandlesReads s r ↔ ∀ i, 0 ≤ s.client i → s.client i ∈ r.rset → 0 ≤ (r.read i).n := by
  have hcalls : ∀ call, call ≠ .accept → (call ∈ (Select.round r s).2 ↔
      ∃ i, (0 ≤ s.client i ∧ s.client i ∈ r.rset) ∧
        call ∈ service (s.client i) (r.read i)) :=
    fun call => h.mem_round_calls hr hback hn hroom
  have hreads : ∀ fd, fd ∈ readsOf (Select.round r s).2 ↔ fd ∈ r.rset ∧ fd ∈ s.connections :=
    fun fd => h.mem_readsOf_round hr hback hn hroom
  constructor
  · intro hhandles i hi hfd
    by_contra hneg
    obtain ⟨buf, count, hwrite⟩ := exists_write_of_failed (not_le.mp hneg) (s.client i)
    obtain ⟨j, hj, -, hpos, -⟩ :=
      hhandles.counts _ _ _ ((hcalls _ (by simp)).2 ⟨i, ⟨hi, hfd⟩, hwrite⟩)
    obtain rfl := h.distinct hi hj.symm
    exact hneg hpos.le
  · intro hread
    have hfinish : ∀ i, 0 ≤ s.client i → s.client i ∈ r.rset →
        (Finishes (r.read i) ↔ (r.read i).n = 0) :=
      fun i hi hfd => finishes_iff (hr.read i) (hread i hi hfd)
    refine ⟨fun fd buf count hwrite => ?_, fun i hi hmem hends => ?_, fun i hi hother => ?_⟩
    · obtain ⟨i, ⟨hi, hfd⟩, hwrite'⟩ := (hcalls _ (by simp)).1 hwrite
      obtain ⟨rfl, hcount⟩ := write_mem_service (hr.read i) (hread i hi hfd) hwrite'
      exact ⟨i, rfl, (hreads _).2 ⟨hfd, h.opened hi⟩, hcount⟩
    · have hfd := ((hreads _).1 hmem).1
      have hzero := (hfinish i hi hfd).1 hends
      obtain ⟨hclient, hall, hconn⟩ := h.round_records hr hback hn hroom hi
      refine ⟨(hcalls _ (by simp)).2 ⟨i, ⟨hi, hfd⟩, close_mem_service hzero _⟩, ?_, ?_, ?_⟩
      · exact hclient.trans (if_pos ⟨hfd, hzero⟩)
      · exact fun hwatched => hall.1 hwatched ⟨hfd, hzero⟩
      · exact fun hopen => hconn.1 hopen ⟨hfd, hzero⟩
    · have hstays : ¬ (s.client i ∈ r.rset ∧ (r.read i).n = 0) := by
        rintro ⟨hfd, hzero⟩
        exact hother ⟨(hreads _).2 ⟨hfd, h.opened hi⟩, (hfinish i hi hfd).2 hzero⟩
      obtain ⟨hclient, hall, hconn⟩ := h.round_records hr hback hn hroom hi
      exact ⟨hclient.trans (if_neg hstays), hall.2 hstays, hconn.2 hstays⟩

end Serving

/-- **When a round deals with its reads as it should**: if and only if it serves nobody (`select`
has failed, or a connection has arrived with every slot occupied) or no read fails. -/
theorem handles_reads_iff (listenfd : ℤ) (h : List (Event Select Round)) (s : Select)
    (hrun : (server Answers listenfd).Run h s) (hback : s.exited = none) (r : Round)
    (hr : Answers s r) :
    HandlesReads s r ↔ r.nready < 0 ∨ (s.listenfd ∈ r.rset ∧ TableFull s) ∨
      ∀ i, 0 ≤ s.client i → s.client i ∈ r.rset → 0 ≤ (r.read i).n := by
  have hinv := tracked_of_run hrun hback
  by_cases hfail : r.nready < 0
  · refine iff_of_true (handlesReads_of_idle hinv ?_ ?_ ?_ ?_) (.inl hfail)
    all_goals rw [round, if_pos hfail]
    exact fun call hcall => absurd hcall List.not_mem_nil
  rw [or_iff_right hfail]
  by_cases hfull : s.listenfd ∈ r.rset ∧ TableFull s
  · refine iff_of_true (handlesReads_of_idle hinv ?_ ?_ ?_ ?_) (.inl hfull)
    all_goals rw [round_full_eq hfail hfull.1 hfull.2]
    · exact fun call hcall => List.mem_singleton.mp hcall
    · show s.connections ⊆ if r.connfd < 0 then s.connections else insert r.connfd s.connections
      split
      · exact Finset.Subset.refl _
      · exact Finset.subset_insert _ _
  rw [or_iff_right hfull]
  exact handlesReads_of_room hinv hr hback (not_lt.mp hfail) hfull

/-- A client hangs up while `accept` fails. -/
theorem handles_reads_hang_up : ∃ h r, (server Answers 3).Run h (connected 1) ∧
    r.rset = {3, 4} ∧ HandlesReads (connected 1) r := by
  obtain ⟨h, hrun⟩ := answers_connected
  let r : Round := ⟨2, {3, 4}, -1, fun _ => .eof⟩
  have hr : Answers (connected 1) r := ⟨by decide, fun _ => .inl rfl, fun _ => trivial⟩
  exact ⟨h, r, hrun, rfl,
    (handles_reads_iff 3 h _ hrun rfl r hr).2 (.inr (.inr fun _ _ _ => le_rfl))⟩

/-- The connection of a client is reset: the server calls `write` with the length that `-1`
becomes, and keeps the connection. -/
theorem writes_after_reset : ¬ ∀ (listenfd : ℤ) (h : List (Event Select Round)) (s : Select),
    (server Answers listenfd).Run h s → s.exited = none → ∀ r : Round, Answers s r →
      HandlesReads s r := by
  intro hclaim
  obtain ⟨h, hrun⟩ := answers_connected
  let r : Round := ⟨1, {4}, -1, fun _ => .error .econnreset⟩
  have hr : Answers (connected 1) r := ⟨by decide, by decide, fun _ => trivial⟩
  have hhandles := hclaim 3 h _ hrun rfl r hr
  have hwrite : echo 4 (.error .econnreset) ∈ (round r (connected 1)).2 := by decide
  obtain ⟨i, -, -, hpos, -⟩ := hhandles.counts _ _ _ hwrite
  exact absurd hpos (by simp [r, ReadResult.n])

end LinuxExercise.Servers.Select
