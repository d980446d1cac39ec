import LinuxExercise.Servers.SelectService

/-!
# The descriptors that the `select` server puts into an `fd_set`

`FD_SET`, `FD_CLR` and `FD_ISSET` are defined for descriptors below `FD_SETSIZE`.  The server
means to stop in time ("too many clients"), but its test counts the slots of `client[]`, while
the numbers of the descriptors also count `0`, `1`, `2` and `listenfd`.

`roundOps` lists the uses of the three macros in a round, beside `round`.  The kernel hands out
the lowest descriptor that is not in use; `fd_ops_in_range_iff` says for which runs that keeps
all of them in range.
-/

namespace LinuxExercise.Servers.Select

open SlotTable

/-- A use of one of the macros on an `fd_set`. -/
inductive FdOp
  | set (fd : ℤ)
  | clr (fd : ℤ)
  | isset (fd : ℤ)

def FdOp.fd : FdOp → ℤ
  | .set fd | .clr fd | .isset fd => fd

/-- The descriptor has a bit in an `fd_set`. -/
def FdOp.InRange (op : FdOp) : Prop := 0 ≤ op.fd ∧ op.fd < fdSetSize

/-! ## The macros in a round -/

/-- Lines 82-103: the scan of the `n` slots from `i` on. -/
def scanOps (r : Round) : ℕ → ℕ → ℤ → Select → List FdOp
  | 0, _, _, _ => []
  | n + 1, i, nready, s =>
    let sockfd := s.client i
    if sockfd < 0 then scanOps r n (i + 1) nready s
    else if sockfd ∈ r.rset then
      .isset sockfd :: ((if (r.read i).n = 0 then [.clr sockfd] else []) ++
        if nready - 1 = 0 then []
        else scanOps r n (i + 1) (nready - 1) (serveClient r.read i s).1)
    else .isset sockfd :: scanOps r n (i + 1) nready s

/-- Lines 46-103: one iteration of the loop. -/
def roundOps (r : Round) (s : Select) : List FdOp :=
  if r.nready < 0 then []
  else if s.listenfd ∈ r.rset then
    let s' := acceptClient r.connfd s
    if s'.exited.isSome then [.isset s.listenfd]
    else
      .isset s.listenfd :: .set r.connfd ::
        if r.nready - 1 = 0 then [] else scanOps r (s'.maxi + 1).toNat 0 (r.nready - 1) s'
  else .isset s.listenfd :: scanOps r (s.maxi + 1).toNat 0 r.nready s

/-- The macros used in a run, beginning with line 31. -/
def fdOps (listenfd : ℤ) (h : List (Event Select Round)) : List FdOp :=
  .set listenfd :: h.flatMap fun e => roundOps e.label e.pre

/-! ## The kernel -/

/-- The descriptors in use. -/
def used (s : Select) : Finset ℤ := {0, 1, 2, s.listenfd} ∪ s.connections

/-- `select` reports a subset of `allset` and its size, or fails; `accept` returns the lowest
descriptor that is not in use. -/
structure Lowest (s : Select) (r : Round) : Prop where
  select : 0 ≤ r.nready → r.rset ⊆ s.allset ∧ r.nready = r.rset.card
  accept : s.listenfd ∈ r.rset →
    0 ≤ r.connfd ∧ r.connfd ∉ used s ∧ ∀ fd, 0 ≤ fd → fd < r.connfd → fd ∈ used s

/-- The step of the run accepts a connection. -/
def Accepts (e : Event Select Round) : Prop :=
  0 ≤ e.label.nready ∧ e.pre.listenfd ∈ e.label.rset

theorem Lowest.fresh {s : Select} {r : Round} (hr : Lowest s r)
    (hlisten : s.listenfd ∈ r.rset) :
    3 ≤ r.connfd ∧ r.connfd ≠ s.listenfd ∧ r.connfd ∉ s.connections := by
  obtain ⟨hpos, hunused, -⟩ := hr.accept hlisten
  simp only [used, Finset.mem_union, Finset.mem_insert, Finset.mem_singleton, not_or] at hunused
  obtain ⟨⟨h0, h1, h2, hne⟩, hnew⟩ := hunused
  exact ⟨by omega, hne, hnew⟩

/-- The lowest unused descriptor is at most the number of those in use. -/
theorem Lowest.connfd_le {s : Select} {r : Round} (hr : Lowest s r)
    (hlisten : s.listenfd ∈ r.rset) : r.connfd ≤ (used s).card := by
  obtain ⟨hpos, -, hlow⟩ := hr.accept hlisten
  have hsub : Finset.Ico 0 r.connfd ⊆ used s := by
    intro fd hfd
    obtain ⟨h0, hlt⟩ := Finset.mem_Ico.mp hfd
    exact hlow fd h0 hlt
  have hcard := Finset.card_le_card hsub
  rw [Int.card_Ico] at hcard
  omega

/-- When as many descriptors below `n` are in use as there are, the next one is not below `n`. -/
theorem Lowest.le_connfd {s : Select} {r : Round} (hr : Lowest s r)
    (hlisten : s.listenfd ∈ r.rset) {n : ℕ} (hrange : ∀ fd ∈ used s, 0 ≤ fd ∧ fd < n)
    (hmany : n ≤ (used s).card) : n ≤ r.connfd := by
  obtain ⟨hpos, hunused, -⟩ := hr.accept hlisten
  have hall : used s = Finset.Ico 0 (n : ℤ) := by
    refine Finset.eq_of_subset_of_card_le (fun fd hfd => Finset.mem_Ico.mpr (hrange fd hfd)) ?_
    rw [Int.card_Ico]
    omega
  rw [hall, Finset.mem_Ico] at hunused
  omega

/-! ## The connections are offset by four descriptors -/

/-- The connections are apart from the four descriptors that are in use from the start. -/
structure Offset (listenfd : ℤ) (s : Select) : Prop where
  listenfd : s.listenfd = listenfd
  connections : ∀ fd ∈ s.connections, 3 ≤ fd

theorem Offset.card_used {listenfd : ℤ} {s : Select} (h : Offset listenfd s)
    (hinv : SelectInv s) (hlisten : 3 ≤ listenfd) :
    (used s).card = s.connections.card + 4 := by
  have hdisj : Disjoint ({0, 1, 2, s.listenfd} : Finset ℤ) s.connections := by
    rw [Finset.disjoint_left]
    intro fd hfd hconn
    have hge := h.connections fd hconn
    simp only [Finset.mem_insert, Finset.mem_singleton] at hfd
    rcases hfd with rfl | rfl | rfl | rfl
    · omega
    · omega
    · omega
    · exact hinv.listening hconn
  have hfour : ({0, 1, 2, s.listenfd} : Finset ℤ).card = 4 := by
    rw [h.listenfd, Finset.card_insert_of_notMem, Finset.card_insert_of_notMem,
      Finset.card_insert_of_notMem, Finset.card_singleton]
    all_goals simp only [Finset.mem_insert, Finset.mem_singleton]; omega
  rw [used, Finset.card_union_of_disjoint hdisj, hfour, add_comm]

/-- A service can only remove a connection. -/
theorem serveClient_connections (read : ℕ → ReadResult) (i : ℕ) (s : Select) :
    (serveClient read i s).1.listenfd = s.listenfd ∧
      (serveClient read i s).1.connections ⊆ s.connections := by
  unfold serveClient
  simp only
  split
  · exact ⟨rfl, Finset.erase_subset _ _⟩
  · exact ⟨rfl, Finset.Subset.refl _⟩

theorem scanClients_connections (r : Round) (nready : ℤ) (s : Select) :
    (scanClients r nready s).1.listenfd = s.listenfd ∧
      (scanClients r nready s).1.connections ⊆ s.connections := by
  refine scan_invariant
    (P := fun s' : Select => s'.listenfd = s.listenfd ∧ s'.connections ⊆ s.connections)
    (fun s' i _ hs => ?_) _ _ _ ⟨rfl, Finset.Subset.refl _⟩
  obtain ⟨hfd, hsub⟩ := serveClient_connections r.read i s'
  exact ⟨hfd.trans hs.1, hsub.trans hs.2⟩

/-- The only connection that a round can add is the one it accepts. -/
theorem round_connections {s : Select} {r : Round}
    (hpos : s.listenfd ∈ r.rset → 0 ≤ r.connfd) :
    (round r s).1.listenfd = s.listenfd ∧ ∀ fd ∈ (round r s).1.connections,
      fd ∈ s.connections ∨ fd = r.connfd ∧ 0 ≤ r.nready ∧ s.listenfd ∈ r.rset := by
  unfold round
  by_cases hn : r.nready < 0
  · rw [if_pos hn]
    exact ⟨rfl, fun fd hfd => .inl hfd⟩
  rw [if_neg hn]
  by_cases hlisten : s.listenfd ∈ r.rset
  · have hacc : (acceptClient r.connfd s).listenfd = s.listenfd ∧
        (acceptClient r.connfd s).connections = insert r.connfd s.connections :=
      ⟨acceptClient_listenfd .., acceptClient_connections (hpos hlisten) s⟩
    have hadd : ∀ fd ∈ (acceptClient r.connfd s).connections,
        fd ∈ s.connections ∨ fd = r.connfd ∧ 0 ≤ r.nready ∧ s.listenfd ∈ r.rset := by
      intro fd hfd
      rw [hacc.2, Finset.mem_insert] at hfd
      exact hfd.symm.imp_right fun heq => ⟨heq, not_lt.mp hn, hlisten⟩
    rw [if_pos hlisten]
    simp only
    split
    · exact ⟨hacc.1, hadd⟩
    · obtain ⟨hfd, hsub⟩ :=
        scanClients_connections r (r.nready - 1) (acceptClient r.connfd s)
      exact ⟨hfd.trans hacc.1, fun fd hmem => hadd fd (hsub hmem)⟩
  · rw [if_neg hlisten]
    obtain ⟨hfd, hsub⟩ := scanClients_connections r r.nready s
    exact ⟨hfd, fun fd hmem => .inl (hsub hmem)⟩

theorem Lowest.connfd_nonneg {s : Select} {r : Round} (hr : Lowest s r) :
    s.listenfd ∈ r.rset → 0 ≤ r.connfd :=
  fun hlisten => (hr.accept hlisten).1

theorem offset_of_run {listenfd : ℤ} {h : List (Event Select Round)} {s : Select}
    (hrun : (server Lowest listenfd).Run h s) : Offset listenfd s := by
  refine hrun.invariant (I := Offset listenfd) ?_ ?_
  · rintro s rfl
    exact ⟨rfl, fun fd hfd => absurd hfd (Finset.notMem_empty fd)⟩
  · rintro s r s' - ⟨-, hr, rfl⟩ hoff
    obtain ⟨hfd, hadd⟩ := round_connections hr.connfd_nonneg
    refine ⟨hfd.trans hoff.listenfd, fun fd hmem => ?_⟩
    rcases hadd fd hmem with hold | ⟨rfl, -, hlisten⟩
    · exact hoff.connections fd hold
    · exact (hr.fresh hlisten).1

theorem selectInv_of_lowest {listenfd : ℤ} {h : List (Event Select Round)} {s : Select}
    (hrun : (server Lowest listenfd).Run h s) : s.exited = none → SelectInv s := by
  refine selectInv_of_fresh (fun s r hr hlisten => ?_) hrun
  obtain ⟨hge, hne, hnew⟩ := hr.fresh hlisten
  exact ⟨zero_le_three.trans hge, hne, hnew⟩

/-! ## The descriptors of a round -/

/-- A scan uses the macros on connections only. -/
theorem SelectInv.scanOps_fd (r : Round) (n i : ℕ) (nready : ℤ) {s : Select} (h : SelectInv s) :
    ∀ op ∈ scanOps r n i nready s, op.fd ∈ s.connections := by
  induction n generalizing i nready s with
  | zero => exact fun op hop => absurd hop List.not_mem_nil
  | succ n ih =>
    intro op hop
    unfold scanOps at hop
    simp only at hop
    split at hop
    · exact ih (i + 1) nready h op hop
    · next hocc =>
      have hconn : s.client i ∈ s.connections := by
        have hlisted := (h.table.mem_iff (s.client i)).2 ⟨hocc, i, rfl⟩
        exact hlisted
      split at hop
      · rcases List.mem_cons.mp hop with rfl | hop
        · exact hconn
        rcases List.mem_append.mp hop with hclr | hrest
        · split at hclr
          · rw [List.mem_singleton.mp hclr]
            exact hconn
          · exact absurd hclr List.not_mem_nil
        · split at hrest
          · exact absurd hrest List.not_mem_nil
          · have hmem := ih (i + 1) _ (h.serveClient hocc) op hrest
            exact (serveClient_connections r.read i s).2 hmem
      · rcases List.mem_cons.mp hop with rfl | hop
        · exact hconn
        · exact ih (i + 1) nready h op hop

/-- Besides the listening socket and the connections a round uses the macros on the descriptor
it accepts. -/
theorem SelectInv.roundOps_fd {s : Select} (h : SelectInv s) {r : Round}
    (hnew : s.listenfd ∈ r.rset →
      0 ≤ r.connfd ∧ r.connfd ≠ s.listenfd ∧ r.connfd ∉ s.connections) :
    ∀ op ∈ roundOps r s, op.fd = s.listenfd ∨ op.fd ∈ s.connections ∨
      op.fd = r.connfd ∧ 0 ≤ r.nready ∧ s.listenfd ∈ r.rset := by
  intro op hop
  unfold roundOps at hop
  by_cases hn : r.nready < 0
  · rw [if_pos hn] at hop
    exact absurd hop List.not_mem_nil
  rw [if_neg hn] at hop
  by_cases hlisten : s.listenfd ∈ r.rset
  · obtain ⟨hpos, hne, hfresh⟩ := hnew hlisten
    rw [if_pos hlisten] at hop
    simp only at hop
    split at hop
    · rw [List.mem_singleton.mp hop]
      exact .inl rfl
    · next hrunning =>
      have hinv := h.acceptClient hpos hfresh hne (by simpa using hrunning)
      have hconn := acceptClient_connections hpos s
      rcases List.mem_cons.mp hop with rfl | hop
      · exact .inl rfl
      rcases List.mem_cons.mp hop with rfl | hop
      · exact .inr (.inr ⟨rfl, not_lt.mp hn, hlisten⟩)
      split at hop
      · exact absurd hop List.not_mem_nil
      · have hmem := hinv.scanOps_fd r _ _ _ op hop
        rw [hconn, Finset.mem_insert] at hmem
        exact .inr (hmem.symm.imp_right fun heq => ⟨heq, not_lt.mp hn, hlisten⟩)
  · rw [if_neg hlisten] at hop
    rcases List.mem_cons.mp hop with rfl | hop
    · exact .inl rfl
    · exact .inr (.inl (h.scanOps_fd r _ _ _ op hop))

/-- An accepted descriptor is put into `allset` unless the table is full. -/
theorem set_mem_roundOps {s : Select} {r : Round} (hrunning : s.exited = none)
    (hn : 0 ≤ r.nready) (hlisten : s.listenfd ∈ r.rset) (hpos : 0 ≤ r.connfd)
    (hroom : ¬ TableFull s) : .set r.connfd ∈ roundOps r s := by
  obtain ⟨hexit, -⟩ := acceptClient_room hroom hpos
  have hgo : ¬ (acceptClient r.connfd s).exited.isSome := by
    rw [hexit, hrunning]
    exact Bool.false_ne_true
  rw [roundOps, if_neg (not_lt.mpr hn), if_pos hlisten]
  simp only
  rw [if_neg hgo]
  exact List.mem_cons_of_mem _ List.mem_cons_self

/-! ## The whole run -/

/-- Every open connection was put into `allset`. -/
theorem connections_set {listenfd : ℤ} {h : List (Event Select Round)} {s : Select}
    (hrun : (server Lowest listenfd).Run h s) (hback : s.exited = none) :
    ∀ fd ∈ s.connections, ∃ op ∈ fdOps listenfd h, op.fd = fd := by
  revert hback
  refine hrun.ledger (J := fun h s => s.exited = none →
    ∀ fd ∈ s.connections, ∃ op ∈ fdOps listenfd h, op.fd = fd) ?_ ?_
  · rintro s rfl - fd hfd
    exact absurd hfd (Finset.notMem_empty fd)
  · rintro h s r s' - ⟨hrunning, hr, rfl⟩ ih hback fd hfd
    have hsplit : fdOps listenfd (h ++ [⟨s, r, (round r s).1⟩]) =
        fdOps listenfd h ++ roundOps r s := by
      simp [fdOps]
    rw [hsplit]
    rcases (round_connections hr.connfd_nonneg).2 fd hfd with hold | ⟨rfl, hn, hlisten⟩
    · obtain ⟨op, hop, heq⟩ := ih hrunning fd hold
      exact ⟨op, List.mem_append_left _ hop, heq⟩
    · have hroom : ¬ TableFull s := by
        intro hfull
        rw [(round_full (not_lt.mpr hn) hlisten hfull).2] at hback
        cases hback
      have hset := set_mem_roundOps hrunning hn hlisten (hr.connfd_nonneg hlisten) hroom
      exact ⟨_, List.mem_append_right _ hset, rfl⟩

theorem fdOps_append (listenfd : ℤ) (h h' : List (Event Select Round)) :
    fdOps listenfd (h ++ h') = fdOps listenfd h ++ h'.flatMap fun e => roundOps e.label e.pre := by
  rw [fdOps, fdOps, List.flatMap_append, List.cons_append]

/-- An accept with `FD_SETSIZE - 4` or more connections open goes out of range, if the run has
not done so before. -/
theorem card_lt_of_in_range {listenfd : ℤ} (hlisten : 3 ≤ listenfd)
    {h : List (Event Select Round)} {s : Select} (hrun : (server Lowest listenfd).Run h s)
    (hback : s.exited = none) {r : Round} (hr : Lowest s r) (hn : 0 ≤ r.nready)
    (hacc : s.listenfd ∈ r.rset)
    (hrange : ∀ op ∈ fdOps listenfd h ++ roundOps r s, op.InRange) :
    s.connections.card < fdSetSize - 4 := by
  have hinv := selectInv_of_lowest hrun hback
  have hoff := offset_of_run hrun
  have hwatched : ∀ fd ∈ s.allset, 0 ≤ fd ∧ fd < fdSetSize := by
    intro fd hfd
    rw [hinv.watched, Finset.mem_insert, hoff.listenfd] at hfd
    rcases hfd with rfl | hconn
    · exact hrange (.set fd) List.mem_cons_self
    · obtain ⟨op, hop, rfl⟩ := connections_set hrun hback fd hconn
      exact hrange op (List.mem_append_left _ hop)
  have hused : ∀ fd ∈ used s, 0 ≤ fd ∧ fd < fdSetSize := by
    intro fd hfd
    rcases Finset.mem_union.mp hfd with hfour | hconn
    · simp only [Finset.mem_insert, Finset.mem_singleton] at hfour
      rcases hfour with rfl | rfl | rfl | rfl
      · decide
      · decide
      · decide
      · exact hwatched _ (hinv.watched ▸ Finset.mem_insert_self ..)
    · exact hwatched fd (hinv.watched ▸ Finset.mem_insert_of_mem hconn)
  by_contra hmany
  have hsize : fdSetSize = 1024 := rfl
  have hcard := hoff.card_used hinv hlisten
  have hout := hr.le_connfd hacc hused (by omega)
  have hset := set_mem_roundOps hback hn hacc (hr.connfd_nonneg hacc)
    (hinv.not_tableFull hwatched)
  have hin := (hrange _ (List.mem_append_right _ hset)).2
  exact absurd hout (not_le.mpr hin)

/-- With fewer connections open at every accept all descriptors are in range. -/
theorem in_range_of_card_lt {listenfd : ℤ} (hlisten : 3 ≤ listenfd)
    (hsmall : listenfd < fdSetSize) {h : List (Event Select Round)} {s : Select}
    (hrun : (server Lowest listenfd).Run h s)
    (hfew : ∀ e ∈ h, Accepts e → e.pre.connections.card < fdSetSize - 4) :
    (∀ op ∈ fdOps listenfd h, op.InRange) ∧ ∀ fd ∈ s.connections, fd < fdSetSize := by
  revert hfew
  refine hrun.ledger (J := fun h s =>
    (∀ e ∈ h, Accepts e → e.pre.connections.card < fdSetSize - 4) →
      (∀ op ∈ fdOps listenfd h, op.InRange) ∧ ∀ fd ∈ s.connections, fd < fdSetSize) ?_ ?_
  · rintro s rfl -
    refine ⟨fun op hop => ?_, fun fd hfd => absurd hfd (Finset.notMem_empty fd)⟩
    rw [List.mem_singleton.mp hop]
    exact ⟨zero_le_three.trans hlisten, hsmall⟩
  · rintro h s r s' hrun ⟨hback, hr, rfl⟩ ih hfew
    obtain ⟨hops, hconn⟩ := ih fun e he => hfew e (List.mem_append_left _ he)
    have hinv := selectInv_of_lowest hrun hback
    have hoff := offset_of_run hrun
    -- The descriptor that is accepted is at most the number of those in use.
    have hnew : 0 ≤ r.nready → s.listenfd ∈ r.rset → r.connfd < fdSetSize := by
      intro hn hacc
      have hcard := hfew _ (List.mem_append_right _ (List.mem_singleton_self _)) ⟨hn, hacc⟩
      have hused := hoff.card_used hinv hlisten
      have hle := hr.connfd_le hacc
      simp only at hcard
      omega
    refine ⟨fun op hop => ?_, fun fd hfd => ?_⟩
    · rw [fdOps_append, List.flatMap_singleton] at hop
      rcases List.mem_append.mp hop with hold | hround
      · exact hops op hold
      have hfresh : s.listenfd ∈ r.rset →
          0 ≤ r.connfd ∧ r.connfd ≠ s.listenfd ∧ r.connfd ∉ s.connections := fun hacc =>
        ⟨hr.connfd_nonneg hacc, (hr.fresh hacc).2⟩
      rcases hinv.roundOps_fd hfresh op hround with heq | hmem | ⟨heq, hn, hacc⟩
      · rw [FdOp.InRange, heq, hoff.listenfd]
        exact ⟨zero_le_three.trans hlisten, hsmall⟩
      · exact ⟨zero_le_three.trans (hoff.connections _ hmem), hconn _ hmem⟩
      · rw [FdOp.InRange, heq]
        exact ⟨hr.connfd_nonneg hacc, hnew hn hacc⟩
    · rcases (round_connections hr.connfd_nonneg).2 fd hfd with hold | ⟨rfl, hn, hacc⟩
      · exact hconn fd hold
      · exact hnew hn hacc

/-- **The `select` server stays within the range of an `fd_set` exactly as long as it accepts
only with fewer than `FD_SETSIZE - 4` connections open.** -/
theorem fd_ops_in_range_iff (listenfd : ℤ) (hlisten : 3 ≤ listenfd)
    (h : List (Event Select Round)) (s : Select) (hrun : (server Lowest listenfd).Run h s) :
    (∀ op ∈ fdOps listenfd h, op.InRange) ↔ listenfd < fdSetSize ∧
      ∀ e ∈ h, Accepts e → e.pre.connections.card < fdSetSize - 4 := by
  constructor
  · intro hrange
    refine ⟨(hrange (.set listenfd) List.mem_cons_self).2, fun e he hacc => ?_⟩
    obtain ⟨h₀, ⟨h₁, rfl⟩, hrun₀, hback, hr, -⟩ := hrun.of_mem he
    refine card_lt_of_in_range hlisten hrun₀ hback hr hacc.1 hacc.2 fun op hop => ?_
    apply hrange op
    rw [fdOps_append, fdOps_append, List.flatMap_singleton]
    exact List.mem_append_left _ hop
  · rintro ⟨hsmall, hfew⟩
    exact (in_range_of_card_lt hlisten hsmall hrun hfew).1

theorem lowest_connecting (n : ℕ) : Lowest (connected n) (connecting n) where
  select := connecting_reported n
  accept _ := by
    have hused : ∀ fd : ℤ, 0 ≤ fd → (fd ∈ used (connected n) ↔ fd < 4 + n) := by
      intro fd hfd
      simp only [used, connected, Finset.mem_union, Finset.mem_insert, Finset.mem_singleton,
        mem_descriptors]
      omega
    have hpos : (0 : ℤ) ≤ 4 + n := by omega
    exact ⟨hpos, fun hmem => lt_irrefl _ ((hused _ hpos).1 hmem),
      fun fd h0 hlt => (hused fd h0).2 hlt⟩

/-- A thousand and twenty clients connect. -/
theorem fd_ops_in_range_1020_clients : ∃ h s, (server Lowest 3).Run h s ∧
    s.connections.card = 1020 ∧ ∀ op ∈ fdOps 3 h, op.InRange := by
  obtain ⟨h, hrun, hmem⟩ := run_connected Lowest (n := 1020) (by decide)
    fun m _ => lowest_connecting m
  refine ⟨h, _, hrun, card_descriptors 1020,
    (fd_ops_in_range_iff 3 le_rfl h _ hrun).2 ⟨by decide, fun e he _ => ?_⟩⟩
  obtain ⟨m, hm, heq⟩ := hmem e he
  rw [heq]
  exact (card_descriptors m).trans_lt hm

/-- The thousand and twenty-first client gets descriptor `1024`. -/
theorem fd_set_out_of_range : ¬ ∀ (listenfd : ℤ) (h : List (Event Select Round)) (s : Select),
    3 ≤ listenfd → (server Lowest listenfd).Run h s →
    ∀ op ∈ fdOps listenfd h, op.InRange := by
  intro hall
  obtain ⟨h, hrun, -⟩ := run_connected Lowest (n := 1020) (by decide)
    fun m _ => lowest_connecting m
  have hstep : (server Lowest 3).step (connected 1020) (connecting 1020) (connected 1021) :=
    ⟨rfl, lowest_connecting 1020, congrArg Prod.fst (round_connecting (by decide))⟩
  have hset : FdOp.set 1024 ∈ roundOps (connecting 1020) (connected 1020) := by
    apply set_mem_roundOps rfl zero_le_one (Finset.mem_singleton_self 3) (by decide)
    intro hfull
    exact absurd (hfull 1020 (by decide)) (by decide)
  have hrange := hall 3 _ _ le_rfl (hrun.step hstep) (.set 1024) (by
    rw [fdOps_append, List.flatMap_singleton]
    exact List.mem_append_right _ hset)
  exact absurd hrange.2 (by decide)

end LinuxExercise.Servers.Select
