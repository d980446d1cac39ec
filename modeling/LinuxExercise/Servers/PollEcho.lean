import LinuxExercise.Servers.EchoServers
import LinuxExercise.Servers.PollTable

/-!
# The `poll` server echoes too

The `poll` server is run together with the record of its connections, as the `select` and the
`epoll` server are.  The record cannot be kept round by round from outside, since a round makes
many calls with results of their own: `observeRound` goes through the round once more with the
record beside the server, and `scan_map` says that the server does not notice.

Nothing is assumed about what `poll` reports, so the reads may be of entries that are not ready
and of the listening socket, whose `read` fails and ends the server.  A connection that is reset
counts as one whose end was read.
-/

namespace LinuxExercise.Servers

open SlotTable

variable {κ : Type*}

namespace Poll

/-! ## The record and the table -/

/-- The open descriptors stand for the connections that are open, each for one. -/
structure Tracks (x : Observed Poll κ) : Prop where
  owned : ∀ fd, fd ∈ x.server.connections ↔ ∃ c, x.sessions.owner fd = some c
  injective : ∀ fd fd' c, x.sessions.owner fd = some c → x.sessions.owner fd' = some c → fd = fd'
  closed : ∀ fd c, x.sessions.owner fd = some c → (x.sessions.session c).closed = false

variable {x : Observed Poll κ} {c : κ}

/-- A change of sessions that closes none. -/
theorem Tracks.of_session (h : Tracks x) {s : Poll} {S : Sessions κ}
    (hconnections : s.connections = x.server.connections) (howner : S.owner = x.sessions.owner)
    (hclosed : ∀ c, (S.session c).closed = (x.sessions.session c).closed) :
    Tracks (⟨s, S⟩ : Observed Poll κ) where
  owned fd := by
    simp only [hconnections, howner]
    exact h.owned fd
  injective := howner ▸ h.injective
  closed fd c hfd := (hclosed c).trans (h.closed fd c (howner ▸ hfd))

/-- A connection is closed. -/
theorem Tracks.close (h : Tracks x) {s : Poll} (fd : ℤ) {S : Sessions κ}
    (hconnections : s.connections = x.server.connections.erase fd)
    (howner : S.owner = Function.update x.sessions.owner fd none)
    (hsession : ∀ c, x.sessions.owner fd ≠ some c → S.session c = x.sessions.session c) :
    Tracks (⟨s, S⟩ : Observed Poll κ) := by
  have hold : ∀ fd' c, S.owner fd' = some c → fd' ≠ fd ∧ x.sessions.owner fd' = some c := by
    intro fd' c hfd'
    rw [howner] at hfd'
    have hne : fd' ≠ fd := by
      rintro rfl
      rw [Function.update_self] at hfd'
      cases hfd'
    rw [Function.update_of_ne hne] at hfd'
    exact ⟨hne, hfd'⟩
  refine ⟨fun fd' => ?_, fun fd₁ fd₂ c h₁ h₂ => ?_, fun fd' c hfd' => ?_⟩
  · simp only [hconnections, Finset.mem_erase]
    constructor
    · rintro ⟨hne, hmem⟩
      obtain ⟨c, hc⟩ := (h.owned fd').mp hmem
      exact ⟨c, by rw [howner, Function.update_of_ne hne, hc]⟩
    · rintro ⟨c, hc⟩
      obtain ⟨hne, hc⟩ := hold fd' c hc
      exact ⟨hne, (h.owned fd').mpr ⟨c, hc⟩⟩
  · exact h.injective fd₁ fd₂ c (hold fd₁ c h₁).2 (hold fd₂ c h₂).2
  · obtain ⟨hne, hc⟩ := hold fd' c hfd'
    have hother : x.sessions.owner fd ≠ some c := fun hfd => hne (h.injective fd' fd c hc hfd)
    simp only [hsession c hother]
    exact h.closed fd' c hc

variable [DecidableEq κ]

/-! ## The server with its record -/

/-- What the record is told of a `read`: a reset is the end of the connection. -/
def seen : ReadResult → ReadResult
  | .error .econnreset => .eof
  | read => read

/-- The record after `accept`: one that failed has taken no connection. -/
def observeAccept (c : κ) (connfd : ℤ) (S : Sessions κ) : Sessions κ :=
  if connfd < 0 then S else S.call c connfd .eof .accept

/-- `serveClient` with the record. -/
def observeServe (c : κ) (read : ℕ → ReadResult) (i : ℕ) (x : Observed Poll κ) :
    Observed Poll κ × List Call :=
  let r := serveClient read i x.server
  (⟨r.1, x.sessions.calls c 0 (seen (readAt read x.server i)) r.2⟩, r.2)

/-- `scanClients` with the record. -/
def observeScan (c : κ) (read : ℕ → ReadResult) (nready : ℤ) (x : Observed Poll κ) :
    Observed Poll κ × List Call :=
  scan (fun x => ready x.server) (observeServe c read) (fun x => x.server.exited.isSome)
    (x.server.maxi + 1).toNat 0 nready x

/-- The record after a round. -/
def observeRound (c : κ) (r : Round) (x : Observed Poll κ) : Sessions κ :=
  if r.nready < 0 then x.sessions
  else
    let s := poll r.revents x.server
    if (s.client 0).revents &&& pollIn ≠ 0 then
      let s' := acceptClient r.connfd s
      let S := observeAccept c r.connfd x.sessions
      if s'.exited.isSome ∨ r.nready - 1 = 0 then S
      else (observeScan c r.read (r.nready - 1) ⟨s', S⟩).1.sessions
    else (observeScan c r.read r.nready ⟨s, x.sessions⟩).1.sessions

/-- The round accepts a connection. -/
def Accepts (s : Poll) (r : Round) : Prop :=
  0 ≤ r.nready ∧ ((poll r.revents s).client 0).revents &&& pollIn ≠ 0 ∧ 0 ≤ r.connfd

/-- The runs of the server with the record of its connections, each accepted once. -/
def observed (κ : Type*) [DecidableEq κ] (listenfd : ℕ) (memory : ℕ → PollFd) :
    System (Observed Poll κ) (Round × κ) where
  init x := x = ⟨start listenfd memory, .empty⟩
  step x l y := x.server.exited = none ∧ AcceptsFresh x.server l.1 ∧
    (∀ i, (l.1.read i).Valid) ∧ (Accepts x.server l.1 → x.sessions.Fresh l.2) ∧
    y = ⟨(round l.1 x.server).1, observeRound l.2 l.1 x⟩

theorem observeScan_server (c : κ) (read : ℕ → ReadResult) (nready : ℤ) (x : Observed Poll κ) :
    (observeScan c read nready x).1.server = (scanClients read nready x.server).1 := by
  have hserve : ∀ (i : ℕ) (x : Observed Poll κ),
      (observeServe c read i x).1.server = (serveClient read i x.server).1 := fun _ _ => rfl
  exact scan_map ready (fun s => s.exited.isSome) Observed.server hserve ..

/-- A connection is accepted, or `accept` fails. -/
theorem Tracks.accept (h : Tracks x) {s : Poll} {connfd : ℤ}
    (hnew : connfd = -1 ∨ 0 ≤ connfd ∧ connfd ∉ x.server.connections)
    (hconnections : s.connections =
      if connfd < 0 then x.server.connections else insert connfd x.server.connections)
    (hfresh : 0 ≤ connfd → x.sessions.Fresh c) :
    Tracks (⟨s, observeAccept c connfd x.sessions⟩ : Observed Poll κ) := by
  rcases hnew with rfl | ⟨hpos, hnew⟩
  · exact h.of_session hconnections rfl fun _ => rfl
  · obtain ⟨hunused, hopen⟩ := hfresh hpos
    rw [if_neg (not_lt.mpr hpos)] at hconnections
    rw [observeAccept, if_neg (not_lt.mpr hpos)]
    have hold : ∀ {fd c'}, Function.update x.sessions.owner connfd (some c) fd = some c' →
        fd = connfd ∧ c' = c ∨ fd ≠ connfd ∧ x.sessions.owner fd = some c' := by
      intro fd c' hfd
      by_cases hne : fd = connfd
      · subst hne
        rw [Function.update_self] at hfd
        exact .inl ⟨rfl, (Option.some.inj hfd).symm⟩
      · rw [Function.update_of_ne hne] at hfd
        exact .inr ⟨hne, hfd⟩
    refine ⟨fun fd => ?_, fun fd fd' c' h₁ h₂ => ?_, fun fd c' hfd => ?_⟩
    · simp only [hconnections, Finset.mem_insert, h.owned, Sessions.call]
      by_cases hne : fd = connfd
      · subst hne
        simp
      · simp [hne]
    · rcases hold h₁ with ⟨rfl, rfl⟩ | ⟨-, hold₁⟩
      · rcases hold h₂ with ⟨rfl, -⟩ | ⟨-, hold₂⟩
        · rfl
        · exact absurd hold₂ (hunused fd')
      · rcases hold h₂ with ⟨-, rfl⟩ | ⟨-, hold₂⟩
        · exact absurd hold₁ (hunused fd)
        · exact h.injective fd fd' c' hold₁ hold₂
    · rcases hold hfd with ⟨rfl, rfl⟩ | ⟨-, hfd⟩
      · exact hopen
      · exact h.closed fd c' hfd

/-! ## A service, a scan and a round -/

/-- What every service of a scan keeps. -/
structure Kept (x : Observed Poll κ) : Prop where
  server : PollInv x.server
  tracks : Tracks x
  echoes : x.sessions.Echoes

/-- A read that fails otherwise than with a reset is not recorded. -/
theorem call_read_error (S : Sessions κ) (connfd : ℤ) (e : Errno) (fd : ℤ) :
    S.call c connfd (.error e) (.read fd) = S := by
  show S.modify fd id = S
  unfold Sessions.modify
  split
  · rfl
  · rw [id_eq, Function.update_eq_self]

/-- The entry of a connection is closed, after its end or a reset. -/
theorem Kept.close (h : Kept x) {i : ℕ} (hpos : ¬ (x.server.client i).fd < 0)
    (hne : (x.server.client i).fd ≠ x.server.listenfd) :
    Kept (⟨closeClient i x.server, x.sessions.calls c 0 .eof
      [.read (x.server.client i).fd, .close (x.server.client i).fd]⟩ : Observed Poll κ) where
  server := h.server.closeClient hpos hne
  tracks := by
    refine h.tracks.close (x.server.client i).fd rfl ?_ fun c' hc' => ?_
    · simp only [Sessions.calls, List.foldl_cons, List.foldl_nil, Sessions.call,
        Sessions.modify_owner]
    · simp only [Sessions.calls, List.foldl_cons, List.foldl_nil, Sessions.call,
        Sessions.modify_session, Sessions.modify_owner, if_neg hc']
  echoes := by
    have heof : 0 ≤ ReadResult.eof.n := le_rfl
    exact h.echoes.service heof trivial .eof (x.server.client i).fd c c 0 0

theorem Kept.serve (h : Kept x) {read : ℕ → ReadResult} (hvalid : ∀ i, (read i).Valid) {i : ℕ}
    (hready : ready x.server i = true) : Kept (observeServe c read i x).1 := by
  have hpos : ¬ (x.server.client i).fd < 0 := (of_decide_eq_true hready).1
  have hread : readAt read x.server i = .error .enotconn ∨
      (x.server.client i).fd ≠ x.server.listenfd ∧ readAt read x.server i = read i := by
    unfold readAt
    split
    · exact .inl rfl
    · next hne => exact .inr ⟨hne, rfl⟩
  have hfail : ∀ e, Kept (⟨{ x.server with exited := some (-3) },
      x.sessions.calls c 0 (.error e) [.read (x.server.client i).fd]⟩ : Observed Poll κ) := by
    intro e
    show Kept (⟨_, x.sessions.call c 0 (.error e) (.read _)⟩ : Observed Poll κ)
    rw [call_read_error]
    exact ⟨⟨h.server.listening, h.server.listenfd, h.server.maxi, h.server.table⟩,
      h.tracks.of_session rfl rfl fun _ => rfl, h.echoes⟩
  unfold observeServe serveClient
  simp only
  rcases hread with hread | ⟨hne, hread⟩
  · rw [hread]
    exact hfail _
  · rw [hread]
    have hi := hvalid i
    cases hr : read i with
    | eof => exact h.close hpos hne
    | error e =>
      cases e with
      | econnreset => exact h.close hpos hne
      | enotconn => exact hfail _
      | other => exact hfail _
    | data bytes =>
      rw [hr] at hi
      have hn : 0 ≤ (ReadResult.data bytes).n := Int.natCast_nonneg _
      have hechoes := h.echoes.service hn hi (.data bytes) (x.server.client i).fd c c 0 0
      rw [if_neg (data_n_ne_zero hi)] at hechoes
      refine ⟨h.server, h.tracks.of_session rfl ?_ fun c' => ?_, hechoes⟩
      · simp [Sessions.calls, Sessions.call, echo]
      · simp only [Sessions.calls, List.foldl_cons, List.foldl_nil, Sessions.call, echo,
          Sessions.modify_session, Sessions.modify_owner]
        split <;> rfl

theorem Kept.scan (h : Kept x) {read : ℕ → ReadResult} (hvalid : ∀ i, (read i).Valid)
    (nready : ℤ) : Kept (observeScan c read nready x).1 :=
  scan_invariant (P := Kept) (fun _ _ hready hx => hx.serve hvalid hready) _ _ _ h

/-- `accept` with the record. -/
theorem Kept.accept (h : Kept x) (c : κ) {connfd : ℤ}
    (hnew : connfd = -1 ∨ 0 ≤ connfd ∧ connfd ≠ x.server.listenfd ∧ connfd ∉ x.server.connections)
    (hfresh : 0 ≤ connfd → x.sessions.Fresh c) :
    Tracks (⟨acceptClient connfd x.server, observeAccept c connfd x.sessions⟩ : Observed Poll κ) ∧
      (observeAccept c connfd x.sessions).Echoes ∧
      ((acceptClient connfd x.server).exited = none → PollInv (acceptClient connfd x.server)) := by
  refine ⟨h.tracks.accept (hnew.imp_right fun hpos => ⟨hpos.1, hpos.2.2⟩) ?_ hfresh, ?_,
    fun hrunning => (h.server.acceptClient hnew fun hfull => ?_).1⟩
  · unfold acceptClient
    simp only
    split <;> rfl
  · unfold observeAccept
    split
    · exact h.echoes
    · exact h.echoes.accept c connfd .eof
  · rw [acceptClient, if_pos hfull] at hrunning
    cases hrunning

/-- The record after a round is that of the server, and the server does not notice it. -/
theorem Kept.round (h : Kept x) {r : Round} (hr : AcceptsFresh x.server r)
    (hvalid : ∀ i, (r.read i).Valid) (hfresh : Accepts x.server r → x.sessions.Fresh c) :
    Tracks (⟨(Poll.round r x.server).1, observeRound c r x⟩ : Observed Poll κ) ∧
      (observeRound c r x).Echoes := by
  have hpoll : Kept (⟨poll r.revents x.server, x.sessions⟩ : Observed Poll κ) :=
    ⟨h.server.poll r.revents, h.tracks.of_session rfl rfl fun _ => rfl, h.echoes⟩
  unfold Poll.round observeRound
  by_cases hfail : r.nready < 0
  · rw [if_pos hfail, if_pos hfail]
    exact ⟨h.tracks.of_session rfl rfl fun _ => rfl, h.echoes⟩
  rw [if_neg hfail, if_neg hfail]
  simp only
  by_cases hin : ((Poll.poll r.revents x.server).client 0).revents &&& pollIn ≠ 0
  · rw [if_pos hin, if_pos hin]
    obtain ⟨htracks, hechoes, hserver⟩ := hpoll.accept c hr
      fun hpos => hfresh ⟨not_lt.mp hfail, hin, hpos⟩
    by_cases hstop : (acceptClient r.connfd (Poll.poll r.revents x.server)).exited.isSome ∨
        r.nready - 1 = 0
    · rw [if_pos hstop, if_pos hstop]
      exact ⟨htracks, hechoes⟩
    · rw [if_neg hstop, if_neg hstop]
      rw [not_or, Option.not_isSome_iff_eq_none] at hstop
      have hkept : Kept (⟨acceptClient r.connfd (Poll.poll r.revents x.server),
          observeAccept c r.connfd x.sessions⟩ : Observed Poll κ) :=
        ⟨hserver hstop.1, htracks, hechoes⟩
      have hscan := hkept.scan (c := c) hvalid (r.nready - 1)
      rw [← observeScan_server c r.read (r.nready - 1) ⟨_, observeAccept c r.connfd x.sessions⟩]
      exact ⟨hscan.tracks, hscan.echoes⟩
  · rw [if_neg hin, if_neg hin]
    have hscan := hpoll.scan (c := c) hvalid r.nready
    rw [← observeScan_server c r.read r.nready ⟨_, x.sessions⟩]
    exact ⟨hscan.tracks, hscan.echoes⟩

end Poll

end LinuxExercise.Servers
