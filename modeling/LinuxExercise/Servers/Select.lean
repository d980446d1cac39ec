import LinuxExercise.Framework.SlotTable
import LinuxExercise.Framework.System
import LinuxExercise.Servers.Kernel

/-!
# The `select` server (`012_network_IO/01select/server.c`)

One iteration of the server's loop is a `round`: `select` reports a set of readable
descriptors, a new connection is accepted if the listening socket is among them, and a scan
over `client[]` serves the ready connections until as many descriptors have been handled as
`select` reported.  What the kernel does in a round (`Round`) is an input; which rounds are
possible is a parameter of the system of runs (`server`), because different statements
make different assumptions about it.

The server keeps the set of its connections four times over: in `client[]` with `maxi`, in
`allset` and in `maxfd`.  `SelectInv` ties all of them to the set of connections that are
open; each of the two ways in which that set changes keeps it.
-/

namespace LinuxExercise.Servers

open SlotTable

/-- `FD_SETSIZE`. -/
def fdSetSize : ℕ := 1024

/-! ## The server -/

/-- The variables of `main`, and which connections are open. -/
structure Select where
  client : ℕ → ℤ
  maxi : ℤ
  maxfd : ℤ
  allset : Finset ℤ
  listenfd : ℤ
  /-- History: the descriptors accepted and not closed since. -/
  connections : Finset ℤ
  /-- The status with which the server has exited. -/
  exited : Option ℤ

namespace Select

/-- What the kernel does in a round: the results of `select`, of `accept` and of the `read` on
each slot's descriptor. -/
structure Round where
  nready : ℤ
  rset : Finset ℤ
  connfd : ℤ
  read : ℕ → ReadResult

/-- The initialisation of lines 24-33. -/
def start (listenfd : ℤ) : Select where
  client _ := -1
  maxi := -1
  maxfd := listenfd
  allset := {listenfd}
  listenfd := listenfd
  connections := ∅
  exited := none

/-- Lines 55-78: `accept` and the first free slot. -/
def acceptClient (connfd : ℤ) (s : Select) : Select :=
  let connections := if connfd < 0 then s.connections else insert connfd s.connections
  let i := firstVacant vacant s.client fdSetSize 0
  if i = fdSetSize then { s with connections := connections, exited := some (-2) }
  else
    { s with
      client := Function.update s.client i connfd
      allset := insert connfd s.allset
      maxfd := if s.maxfd < connfd then connfd else s.maxfd
      maxi := if s.maxi < i then i else s.maxi
      connections := connections }

/-- The test of lines 84-86: slot `i` has a descriptor and it is in `rset`. -/
def ready (rset : Finset ℤ) (s : Select) (i : ℕ) : Bool :=
  decide (¬ s.client i < 0 ∧ s.client i ∈ rset)

/-- Lines 87-99: one ready connection.  Only `n = 0` closes it; any other `n`, a negative one
included, goes to the echo. -/
def serveClient (read : ℕ → ReadResult) (i : ℕ) (s : Select) : Select × List Call :=
  let sockfd := s.client i
  if (read i).n = 0 then
    ({ s with
        allset := s.allset.erase sockfd
        client := Function.update s.client i (-1)
        connections := s.connections.erase sockfd },
      [.read sockfd, .close sockfd])
  else (s, [.read sockfd, echo sockfd (read i)])

/-- The loop of lines 82-103, with `nready` descriptors left to handle. -/
def scanClients (r : Round) (nready : ℤ) (s : Select) : Select × List Call :=
  scan (ready r.rset) (serveClient r.read) (fun _ => false) (s.maxi + 1).toNat 0 nready s

/-- Lines 46-103: one iteration of the loop, with the calls it makes. -/
def round (r : Round) (s : Select) : Select × List Call :=
  if r.nready < 0 then ({ s with exited := some (-1) }, [])
  else if s.listenfd ∈ r.rset then
    let s' := acceptClient r.connfd s
    if s'.exited.isSome ∨ r.nready - 1 = 0 then (s', [.accept])
    else ((scanClients r (r.nready - 1) s').1, .accept :: (scanClients r (r.nready - 1) s').2)
  else scanClients r r.nready s

/-- The runs of the server in an environment `env`, round by round until it exits. -/
def server (env : Select → Round → Prop) (listenfd : ℤ) : System Select Round where
  init s := s = start listenfd
  step s r s' := s.exited = none ∧ env s r ∧ (round r s).1 = s'

/-- `select` reports a subset of `allset` or fails, `accept` returns a descriptor that is not
open and fits an `fd_set`, and no `read` fails. -/
structure Benign (s : Select) (r : Round) : Prop where
  select : 0 ≤ r.nready → r.rset ⊆ s.allset ∧ r.nready = r.rset.card
  accept : s.listenfd ∈ r.rset → 0 ≤ r.connfd ∧ r.connfd < fdSetSize ∧
    r.connfd ≠ s.listenfd ∧ r.connfd ∉ s.connections
  read : ∀ i, 0 ≤ (r.read i).n

/-! ## The invariant -/

/-- The four records of the set of connections agree with it. -/
structure SelectInv (s : Select) : Prop where
  table : Lists vacant s.client (s.maxi + 1).toNat s.connections
  maxi : -1 ≤ s.maxi
  watched : s.allset = insert s.listenfd s.connections
  listening : s.listenfd ∉ s.connections
  max : ∀ fd ∈ s.allset, fd ≤ s.maxfd

theorem start_inv (listenfd : ℤ) : SelectInv (start listenfd) where
  table := Lists.empty (fun _ => by simp [start, vacant]) (by simp [start])
  maxi := le_rfl
  watched := by simp [start]
  listening := by simp [start]
  max fd hfd := by
    rw [start, Finset.mem_singleton] at hfd
    exact hfd.le

theorem acceptClient_listenfd (connfd : ℤ) (s : Select) :
    (acceptClient connfd s).listenfd = s.listenfd := by
  unfold acceptClient
  simp only
  split <;> rfl

/-- The connection is open whether or not there is a slot for it. -/
theorem acceptClient_connections {connfd : ℤ} (hpos : 0 ≤ connfd) (s : Select) :
    (acceptClient connfd s).connections = insert connfd s.connections := by
  unfold acceptClient
  rw [if_neg (not_lt.mpr hpos)]
  simp only
  split <;> rfl

/-- A descriptor that was not open is entered into all four records. -/
theorem SelectInv.acceptClient {s : Select} (h : SelectInv s) {connfd : ℤ} (hpos : 0 ≤ connfd)
    (hnew : connfd ∉ s.connections) (hlisten : connfd ≠ s.listenfd)
    (hrunning : (acceptClient connfd s).exited = none) : SelectInv (acceptClient connfd s) := by
  have hfull : firstVacant vacant s.client fdSetSize 0 ≠ fdSetSize := by
    intro hfull
    simp [Select.acceptClient, hfull] at hrunning
  have hslot := vacant_of_found hfull
  unfold Select.acceptClient
  rw [if_neg hfull, if_neg (not_lt.mpr hpos)]
  generalize firstVacant vacant s.client fdSetSize 0 = i at hslot
  refine ⟨?_, neg_one_le_maxi h.maxi i, ?_, ?_, fun fd hfd => ?_⟩
  · rw [Finset.coe_insert]
    exact lists_accept h.table h.maxi hslot hpos hnew
  · rw [h.watched, Finset.insert_comm]
  · rw [Finset.mem_insert]
    rintro (heq | hmem)
    · exact hlisten heq.symm
    · exact h.listening hmem
  · have hcases : fd = connfd ∨ fd ≤ s.maxfd := by
      rcases Finset.mem_insert.mp hfd with heq | hmem
      · exact .inl heq
      · exact .inr (h.max fd hmem)
    simp only
    split <;> omega

/-- Serving a connection either changes nothing or removes it from all four records. -/
theorem SelectInv.serveClient {s : Select} (h : SelectInv s) {read : ℕ → ReadResult} {i : ℕ}
    (hi : ¬ s.client i < 0) : SelectInv (serveClient read i s).1 := by
  unfold Select.serveClient
  simp only
  split
  · have hmem : s.client i ∈ s.connections := by
      have hlisted : s.client i ∈ (s.connections : Set ℤ) :=
        (h.table.mem_iff _).2 ⟨hi, i, rfl⟩
      exact hlisted
    have hne : s.client i ≠ s.listenfd := fun heq => h.listening (heq ▸ hmem)
    refine ⟨?_, h.maxi, ?_, fun hl => ?_, fun fd hfd => ?_⟩
    · rw [Finset.coe_erase]
      exact h.table.clear hi (by simp [vacant])
    · show s.allset.erase _ = _
      rw [h.watched, Finset.erase_insert_of_ne hne.symm]
    · exact h.listening (Finset.mem_of_mem_erase hl)
    · exact h.max fd (Finset.mem_of_mem_erase hfd)
  · exact h

/-- A service never makes the server exit. -/
theorem serveClient_exited (read : ℕ → ReadResult) (i : ℕ) (s : Select) :
    (serveClient read i s).1.exited = s.exited := by
  unfold serveClient
  simp only
  split <;> rfl

theorem SelectInv.scanClients {s : Select} (h : SelectInv s) (r : Round) (nready : ℤ) :
    SelectInv (scanClients r nready s).1 :=
  scan_invariant (P := SelectInv)
    (fun _ _ hready hs => hs.serveClient (of_decide_eq_true hready).1) _ _ _ h

theorem scanClients_exited (r : Round) (nready : ℤ) (s : Select) :
    (scanClients r nready s).1.exited = s.exited :=
  scan_invariant (P := fun s' => s'.exited = s.exited)
    (fun s' i _ hs => (serveClient_exited r.read i s').trans hs) _ _ _ rfl

theorem SelectInv.round {s : Select} (h : SelectInv s) {r : Round}
    (hnew : s.listenfd ∈ r.rset →
      0 ≤ r.connfd ∧ r.connfd ≠ s.listenfd ∧ r.connfd ∉ s.connections)
    (hrunning : (round r s).1.exited = none) : SelectInv (round r s).1 := by
  unfold Select.round at hrunning ⊢
  by_cases hfail : r.nready < 0
  · rw [if_pos hfail] at hrunning
    cases hrunning
  rw [if_neg hfail] at hrunning ⊢
  by_cases hlisten : s.listenfd ∈ r.rset
  · rw [if_pos hlisten] at hrunning ⊢
    obtain ⟨hpos, hne, hfresh⟩ := hnew hlisten
    simp only at hrunning ⊢
    split at hrunning
    · next hlast =>
      rw [if_pos hlast]
      exact h.acceptClient hpos hfresh hne hrunning
    · next hmore =>
      rw [if_neg hmore]
      rw [scanClients_exited] at hrunning
      exact (h.acceptClient hpos hfresh hne hrunning).scanClients r _
  · rw [if_neg hlisten]
    exact h.scanClients r _

/-- The invariant holds in every environment in which `accept` returns what is not open. -/
theorem selectInv_of_fresh {env : Select → Round → Prop}
    (hfresh : ∀ s r, env s r → s.listenfd ∈ r.rset →
      0 ≤ r.connfd ∧ r.connfd ≠ s.listenfd ∧ r.connfd ∉ s.connections)
    {listenfd : ℤ} {h : List (Event Select Round)} {s : Select}
    (hrun : (server env listenfd).Run h s) : s.exited = none → SelectInv s := by
  refine hrun.invariant_on (C := fun s => s.exited = none) (I := SelectInv) ?_ ?_ ?_
  · intro s r s' hstep _
    exact hstep.1
  · rintro s rfl -
    exact start_inv listenfd
  · rintro s r s' - ⟨-, hr, rfl⟩ - hrunning hinv
    exact hinv.round (hfresh s r hr) hrunning

theorem selectInv_of_run {listenfd : ℤ} {h : List (Event Select Round)} {s : Select}
    (hrun : (server Benign listenfd).Run h s) : s.exited = none → SelectInv s := by
  refine selectInv_of_fresh (fun s r hr hlisten => ?_) hrun
  obtain ⟨hpos, -, hne, hnew⟩ := hr.accept hlisten
  exact ⟨hpos, hne, hnew⟩

/-! ## What is watched is what is open -/

/-- The client table, `maxi`, `allset` and `maxfd` describe the same set of connections, and it
is the set of the open ones. -/
structure Watches (s : Select) : Prop where
  distinct : ∀ i j, 0 ≤ s.client i → s.client i = s.client j → i = j
  below : ∀ i : ℕ, 0 ≤ s.client i → (i : ℤ) ≤ s.maxi
  watched : ∀ fd, fd ∈ s.allset ↔ fd = s.listenfd ∨ 0 ≤ fd ∧ ∃ i, s.client i = fd
  opened : ∀ fd, fd ∈ s.connections ↔ 0 ≤ fd ∧ ∃ i, s.client i = fd
  max : ∀ fd ∈ s.allset, fd ≤ s.maxfd

/-- **The `select` server watches exactly its open connections.** -/
theorem select_watches_open (listenfd : ℤ) (h : List (Event Select Round)) (s : Select)
    (hrun : (server Benign listenfd).Run h s) (hback : s.exited = none) : Watches s := by
  have hinv := selectInv_of_run hrun hback
  have hopened : ∀ fd, fd ∈ s.connections ↔ 0 ≤ fd ∧ ∃ i, s.client i = fd := by
    intro fd
    have hmem := hinv.table.mem_iff fd
    rw [Finset.mem_coe] at hmem
    rw [hmem, vacant, not_lt]
  refine ⟨fun i j hi hij => ?_, fun i hi => ?_, fun fd => ?_, hopened, hinv.max⟩
  · exact hinv.table.distinct i j (not_lt.mpr hi) hij
  · have hbelow := hinv.table.below i (not_lt.mpr hi)
    omega
  · rw [hinv.watched, Finset.mem_insert, hopened]

/-- A client connects; then a second one connects while the first hangs up. -/
theorem select_watches_second_client :
    ∃ h s, (server Benign 3).Run h s ∧ s.connections = {5} ∧ Watches s := by
  let r₁ : Round := ⟨1, {3}, 4, fun _ => .eof⟩
  let r₂ : Round := ⟨2, {3, 4}, 5, fun _ => .eof⟩
  have hread : ∀ i : ℕ, 0 ≤ ((fun _ => ReadResult.eof) i).n := fun _ => le_rfl
  have hrun₁ := System.Run.step (M := server Benign 3) (System.Run.start rfl)
    (l := r₁) ⟨rfl, ⟨by decide, by decide, hread⟩, rfl⟩
  have hrun₂ := hrun₁.step (l := r₂) ⟨by decide, ⟨by decide, by decide, hread⟩, rfl⟩
  exact ⟨_, _, hrun₂, by decide, select_watches_open 3 _ _ hrun₂ (by decide)⟩

end Select

end LinuxExercise.Servers
