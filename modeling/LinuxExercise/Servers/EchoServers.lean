import LinuxExercise.Servers.Epoll
import LinuxExercise.Servers.SelectLoop
import LinuxExercise.Servers.Sessions

/-!
# The `select` server and the `epoll` server echo alike

Each server is run together with the record of its connections.  A label says which call is
made, what it returns, and which connection `accept` takes; nothing is assumed about the order
of the descriptors in a batch, the size of the batches, how a byte stream is cut into reads, or
which descriptor numbers are used again.

The two are never compared with each other.  Both keep `Sessions.Echoes`, so that what a
connection has been sent is a function of what was read from it, and its being closed is a
function of whether its end of file was read.
-/

namespace LinuxExercise.Servers

variable {κ : Type*} [DecidableEq κ]

/-! ## The `select` server -/

namespace Select.Loop

/-- What `accept` returns in the step. -/
def Label.connfd : Label → ℤ
  | .accept connfd => connfd
  | _ => 0

/-- What `read` returns in the step. -/
def Label.result : Label → ReadResult
  | .slot read => read
  | _ => .eof

/-- The runs of the server with the record of its connections, each accepted once. -/
def observed (κ : Type*) [DecidableEq κ] (listenfd : ℤ) :
    System (Observed Loop κ) (Label × κ) where
  init x := x = ⟨start listenfd, .empty⟩
  step x l y := Env x.server l.1 ∧ (∀ connfd, l.1 = .accept connfd → x.sessions.Fresh l.2) ∧
    ∃ calls, advance x.server l.1 = some (y.server, calls) ∧
      y.sessions = x.sessions.calls l.2 l.1.connfd l.1.result calls

/-- The record is right, but for the reply that is due. -/
def Due (s : Loop) (S : Sessions κ) : Prop :=
  match s.pc with
  | .reply _ _ i read => ∃ S₀ : Sessions κ, S₀.Echoes ∧
      ∃ c connfd, S = S₀.call c connfd read (.read (s.vars.client i))
  | _ => S.Echoes

theorem Due.step {s s' : Loop} {S : Sessions κ} {l : Label} {c : κ} {calls : List Call}
    (hinv : Inv s) (h : Due s S) (hstep : advance s l = some (s', calls)) :
    Due s' (S.calls c l.connfd l.result calls) := by
  cases stepped_of_advance hstep with
  | fail hpc =>
    rw [Due, hpc] at h
    exact h
  | select hpc _ _ hnext =>
    rw [Due, hpc] at h
    rcases hnext with ⟨-, rfl⟩ | ⟨-, rfl⟩ <;> exact h
  | accept hpc hnext =>
    rw [Due, hpc] at h
    rcases hnext with rfl | ⟨-, rfl⟩ <;> exact h.accept c _ .eof
  | skip hpc hnext =>
    rw [Due, hpc] at h
    rcases hnext with rfl | rfl <;> exact h
  | @read rset nready i read hpc =>
    rw [Due, hpc] at h
    exact ⟨S, h, c, Label.connfd (.slot read), rfl⟩
  | @reply rset nready i read pc hpc hnext =>
    obtain ⟨-, hn, hvalid⟩ := hinv.served rset nready i read hpc
    rw [Due, hpc] at h
    obtain ⟨S₀, hS₀, c₀, connfd, rfl⟩ := h
    have hservice := hS₀.service hn hvalid (Label.result .reply) (s.vars.client i) c₀ c connfd
      (Label.connfd .reply)
    rw [← handle_call] at hservice
    rcases hnext with rfl | rfl <;> exact hservice

theorem due_of_run {listenfd : ℤ} {h : List (Event (Observed Loop κ) (Label × κ))}
    {x : Observed Loop κ} (hrun : (observed κ listenfd).Run h x) :
    Inv x.server ∧ Due x.server x.sessions := by
  refine hrun.invariant (I := fun x => Inv x.server ∧ Due x.server x.sessions) ?_ ?_
  · rintro x rfl
    exact ⟨start_inv listenfd, Sessions.empty_echoes⟩
  · rintro x l y - ⟨henv, -, calls, hstep, hsessions⟩ ⟨hinv, hdue⟩
    refine ⟨hinv.advance henv hstep, ?_⟩
    rw [hsessions]
    exact hdue.step hinv hstep

/-- Between two services every connection is as it should be. -/
theorem echoes_of_run {listenfd : ℤ} {h : List (Event (Observed Loop κ) (Label × κ))}
    {x : Observed Loop κ} (hrun : (observed κ listenfd).Run h x) (hrest : ¬ Replying x.server) :
    x.sessions.Echoes := by
  have hdue := (due_of_run hrun).2
  unfold Due at hdue
  split at hdue
  · next hpc => exact absurd ⟨_, _, _, _, hpc⟩ hrest
  · exact hdue

end Select.Loop

/-! ## The `epoll` server -/

namespace Epoll

/-- The calls that a step adds to the history. -/
def callsOf (s s' : Epoll) : List Call := s'.calls.drop s.calls.length

/-- What `accept` returns in the step. -/
def Label.connfd : Label → ℤ
  | .event connfd _ => connfd
  | _ => 0

/-- What `read` returns in the step. -/
def Label.result : Label → ReadResult
  | .event _ read => read
  | _ => .eof

/-- A `read` of an open connection returns `0` or what fits `buf`. -/
def ReadsSucceed (s : Epoll) (l : Label) : Prop :=
  ∀ e ∈ s.events[s.i]?, e.fd ∈ s.connections → 0 ≤ l.result.n ∧ l.result.Valid

/-- The step accepts a connection. -/
def Accepts (s : Epoll) (l : Label) : Prop :=
  ∃ connfd read, l = .event connfd read ∧ ∃ e ∈ s.events[s.i]?, e.fd = s.listenfd

/-- The runs of the server with the record of its connections, each accepted once. -/
def observed (κ : Type*) [DecidableEq κ] (listenfd epollfd : ℕ) :
    System (Observed Epoll κ) (Label × κ) where
  init x := x = ⟨start listenfd epollfd, .empty⟩
  step x l y := ReadsSucceed x.server l.1 ∧ (Accepts x.server l.1 → x.sessions.Fresh l.2) ∧
    next x.server l.1 = some y.server ∧
      y.sessions = x.sessions.calls l.2 l.1.connfd l.1.result (callsOf x.server y.server)

/-- The events still to be handled are about watched descriptors, each about another one. -/
structure Batch (s : Epoll) : Prop where
  watched : ∀ e ∈ s.events.drop s.i, e.fd ∈ s.interest
  nodup : ((s.events.drop s.i).map EpollEvent.fd).Nodup

/-- The loop of lines 102-108 closes `sockfd`, once for each slot that holds it. -/
theorem closeClients_calls (sockfd : ℤ) (n j : ℕ) (s : Epoll) :
    ∃ k, (closeClients sockfd n j s).calls = s.calls ++ List.replicate k (.close sockfd) ∧
      ((∃ i, (j ≤ i ∧ i < j + n) ∧ s.client i = sockfd) → k ≠ 0) := by
  induction n generalizing j s with
  | zero =>
    refine ⟨0, (List.append_nil _).symm, ?_⟩
    rintro ⟨i, hi, -⟩
    omega
  | succ n ih =>
    unfold closeClients
    split
    · next hj =>
      obtain ⟨k, hk, -⟩ := ih (j + 1)
        { close (s.client j) s with client := Function.update s.client j (-1) }
      refine ⟨k + 1, ?_, fun _ => Nat.succ_ne_zero k⟩
      rw [hk, List.replicate_succ, ← hj]
      exact List.append_assoc ..
    · next hj =>
      obtain ⟨k, hk, hpos⟩ := ih (j + 1) s
      refine ⟨k, hk, ?_⟩
      rintro ⟨i, hi, hslot⟩
      have hij : i ≠ j := by
        rintro rfl
        exact hj hslot
      exact hpos ⟨i, by omega, hslot⟩

/-- What the server does for a connection that is open. -/
theorem EpollInv.calls_serveClient {s : Epoll} (h : EpollInv s) {read : ReadResult} {sockfd : ℤ}
    (hmem : sockfd ∈ s.connections) (hn : 0 ≤ read.n) (hvalid : read.Valid) :
    ∃ k, (Epoll.serveClient read sockfd s).calls = s.calls ++ .read sockfd ::
      if read.n = 0 then List.replicate (k + 1) (.close sockfd) else [echo sockfd read] := by
  cases read with
  | eof =>
    have hint : sockfd ∈ s.interest := by
      rw [h.watched]
      exact Finset.mem_insert_of_mem hmem
    obtain ⟨hpos, j, hj⟩ := h.mem_connections.mp hmem
    have hbelow := h.table.below j (by rw [hj]; exact not_lt.mpr hpos)
    obtain ⟨k, hk, hne⟩ := closeClients_calls sockfd (s.maxi + 1).toNat 0
      { s with calls := s.calls ++ [.read sockfd], interest := s.interest.erase sockfd }
    obtain ⟨k', rfl⟩ := Nat.exists_eq_succ_of_ne_zero (hne ⟨j, by omega, hj⟩)
    have hserve : Epoll.serveClient .eof sockfd s =
        Epoll.closeClients sockfd (s.maxi + 1).toNat 0
          { s with calls := s.calls ++ [.read sockfd], interest := s.interest.erase sockfd } :=
      if_pos hint
    have hzero : ReadResult.eof.n = 0 := rfl
    refine ⟨k', ?_⟩
    rw [hserve, hk, if_pos hzero]
    exact List.append_assoc ..
  | data bytes =>
    refine ⟨0, ?_⟩
    rw [if_neg (data_n_ne_zero hvalid)]
    exact List.append_assoc ..
  | error e => exact absurd hn (by simp [ReadResult.n])

/-- The event that is handled next is about the listening socket or an open connection. -/
theorem Batch.open_of_event {s : Epoll} (hbatch : Batch s) (h : EpollInv s) {e : EpollEvent}
    (he : s.events[s.i]? = some e) (hlisten : e.fd ≠ s.listenfd) : e.fd ∈ s.connections := by
  have hwatched := hbatch.watched e (drop_eq_cons he ▸ List.mem_cons_self)
  rw [h.watched, Finset.mem_insert] at hwatched
  exact hwatched.resolve_left hlisten

/-- With successful reads on the open connections no reset is handled. -/
theorem Batch.resetsFree {s : Epoll} {l : Label} (hbatch : Batch s) (h : EpollInv s)
    (hreads : ReadsSucceed s l) : ResetsFree s l := by
  unfold ResetsFree
  split
  · intro e he hlisten _
    have hn := (hreads e he (hbatch.open_of_event h (Option.mem_def.mp he) hlisten)).1
    exact absurd hn (by simp [Label.result, ReadResult.n])
  · trivial

theorem serveEvent_listenfd (connfd : ℤ) (read : ReadResult) (e : EpollEvent) (s : Epoll) :
    (serveEvent connfd read e s).listenfd = s.listenfd := by
  unfold serveEvent
  split
  · unfold acceptClient
    simp only
    split <;> rfl
  split
  · unfold serveClient
    simp only
    split
    · split
      · exact (closeClients_frame ..).2.1
      · rfl
    · rfl
    · rfl
    · rfl
  · rfl

theorem Batch.next {s s' : Epoll} {l : Label} (hbatch : Batch s) (h : EpollInv s)
    (hreads : ReadsSucceed s l) (hstep : next s l = some s') (hrunning : s'.exited = none) :
    Batch s' := by
  have hinv := h.next hstep (hbatch.resetsFree h hreads) hrunning
  obtain ⟨-, -, rfl⟩ | ⟨batch, rfl, -, henv, rfl⟩ | ⟨connfd, read, e, rfl, he, -, -, rfl⟩ :=
    next_cases hstep
  · cases hrunning
  · exact ⟨henv.2.1, henv.1⟩
  · have hdrop := drop_eq_cons he
    have hnodup := hbatch.nodup
    rw [hdrop, List.map_cons, List.nodup_cons] at hnodup
    refine ⟨fun e' he' => ?_, ?_⟩
    · simp only [serveEvent_events] at he'
      have hold := hbatch.watched e' (hdrop ▸ List.mem_cons_of_mem _ he')
      have hne : e.fd ≠ e'.fd := fun heq => hnodup.1 (List.mem_map.mpr ⟨e', he', heq.symm⟩)
      have hlisten := serveEvent_listenfd connfd read e s
      rw [h.watched, Finset.mem_insert] at hold
      rw [hinv.watched, Finset.mem_insert]
      refine hold.imp (fun heq => heq.trans hlisten.symm) fun hopen => ?_
      by_contra hclosed
      rcases closed_cases hopen hclosed with ⟨-, heq⟩ | ⟨hread, -, hlisten', hin⟩
      · exact hne heq
      · have hn := (hreads e he (hbatch.open_of_event h he hlisten')).1
        rw [Label.result, hread] at hn
        exact absurd hn (by simp [ReadResult.n])
    · simp only [serveEvent_events]
      exact hnodup.2

/-- The calls that serve an open connection: a `read`, and the echo or the `close`. -/
def Service (fd : ℤ) (read : ReadResult) (cs : List Call) : Prop :=
  0 ≤ read.n ∧ read.Valid ∧ ∃ k, cs = .read fd ::
    if read.n = 0 then List.replicate (k + 1) (.close fd) else [echo fd read]

/-- The calls of a step that handles an event. -/
theorem calls_serveEvent {s : Epoll} (h : EpollInv s) (hbatch : Batch s) {connfd : ℤ}
    {read : ReadResult} {e : EpollEvent} (he : s.events[s.i]? = some e)
    (hreads : ReadsSucceed s (.event connfd read)) :
    ∃ cs, (serveEvent connfd read e s).calls = s.calls ++ cs ∧
      (cs = [.accept] ∨ cs = [] ∨ Service e.fd read cs) := by
  unfold serveEvent
  by_cases hlisten : e.fd = s.listenfd
  · rw [if_pos hlisten]
    refine ⟨[.accept], ?_, .inl rfl⟩
    unfold acceptClient
    simp only
    split <;> rfl
  rw [if_neg hlisten]
  by_cases hin : e.events &&& epollIn ≠ 0
  · rw [if_pos hin]
    have hopen := hbatch.open_of_event h he hlisten
    obtain ⟨hn, hvalid⟩ := hreads e he hopen
    obtain ⟨k, hcalls⟩ := h.calls_serveClient hopen hn hvalid
    exact ⟨_, hcalls, .inr (.inr ⟨hn, hvalid, k, rfl⟩)⟩
  · rw [if_neg hin]
    exact ⟨[], (List.append_nil _).symm, .inr (.inl rfl)⟩

/-- A step accepts, serves one connection or makes no call that concerns a connection. -/
theorem callsOf_next {s s' : Epoll} {l : Label} (h : EpollInv s) (hbatch : Batch s)
    (hreads : ReadsSucceed s l) (hstep : next s l = some s') :
    callsOf s s' = [.accept] ∨ callsOf s s' = [] ∨
      ∃ fd, Service fd l.result (callsOf s s') := by
  have hcalls : ∃ cs, s'.calls = s.calls ++ cs ∧
      (cs = [.accept] ∨ cs = [] ∨ ∃ fd, Service fd l.result cs) := by
    obtain ⟨-, -, rfl⟩ | ⟨batch, -, -, -, rfl⟩ | ⟨connfd, read, e, rfl, he, -, -, rfl⟩ :=
      next_cases hstep
    · exact ⟨[], (List.append_nil _).symm, .inr (.inl rfl)⟩
    · exact ⟨[], (List.append_nil _).symm, .inr (.inl rfl)⟩
    · obtain ⟨cs, hcalls, hcs⟩ := calls_serveEvent h hbatch he hreads
      exact ⟨cs, hcalls, hcs.imp_right (Or.imp_right fun hservice => ⟨e.fd, hservice⟩)⟩
  obtain ⟨cs, heq, hcs⟩ := hcalls
  have hnew : callsOf s s' = cs := by rw [callsOf, heq, List.drop_left]
  rw [hnew]
  exact hcs

theorem Service.echoes {fd : ℤ} {read : ReadResult} {cs : List Call}
    (hservice : Service fd read cs) {S : Sessions κ} (hS : S.Echoes) (c : κ) (connfd : ℤ) :
    (S.calls c connfd read cs).Echoes := by
  obtain ⟨hn, hvalid, k, rfl⟩ := hservice
  have hone := hS.service hn hvalid read fd c c connfd connfd
  show ((S.call c connfd read (.read fd)).calls c connfd read _).Echoes
  by_cases hzero : read.n = 0
  · rw [if_pos hzero] at hone
    rw [if_pos hzero, Sessions.calls_close]
    exact hone
  · rw [if_neg hzero] at hone
    rw [if_neg hzero]
    exact hone

theorem echoes_step {s s' : Epoll} {S : Sessions κ} {l : Label} {c : κ} (hS : S.Echoes)
    (h : EpollInv s) (hbatch : Batch s) (hreads : ReadsSucceed s l)
    (hstep : next s l = some s') : (S.calls c l.connfd l.result (callsOf s s')).Echoes := by
  rcases callsOf_next h hbatch hreads hstep with hcalls | hcalls | ⟨fd, hservice⟩
  · rw [hcalls]
    exact hS.accept c l.connfd l.result
  · rw [hcalls]
    exact hS
  · exact hservice.echoes hS c l.connfd

theorem echoes_of_run {listenfd epollfd : ℕ} {h : List (Event (Observed Epoll κ) (Label × κ))}
    {x : Observed Epoll κ} (hrun : (observed κ listenfd epollfd).Run h x) :
    x.sessions.Echoes := by
  have key : (x.server.exited = none → EpollInv x.server ∧ Batch x.server) ∧
      x.sessions.Echoes := by
    refine hrun.invariant (I := fun x => (x.server.exited = none →
      EpollInv x.server ∧ Batch x.server) ∧ x.sessions.Echoes) ?_ ?_
    · rintro x rfl
      refine ⟨fun _ => ⟨start_inv listenfd epollfd, ?_⟩, Sessions.empty_echoes⟩
      exact ⟨fun e he => absurd he List.not_mem_nil, List.nodup_nil⟩
    · rintro x l y - ⟨hreads, -, hstep, hsessions⟩ ⟨hinv, hechoes⟩
      obtain ⟨hserver, hbatch⟩ := hinv (next_running hstep)
      refine ⟨fun hrunning => ⟨?_, hbatch.next hserver hreads hstep hrunning⟩, ?_⟩
      · exact hserver.next hstep (hbatch.resetsFree hserver hreads) hrunning
      · rw [hsessions]
        exact echoes_step hechoes hserver hbatch hreads hstep
  exact key.2

end Epoll

/-! ## The two servers -/

/-- **The servers are observationally equal.**  Take a run of each, the `select` server not
being between a `read` and its reply.  If the same bytes have been read from each connection in
both, and the end of file of the same connections, then each connection has been sent the same
bytes in both, the upper-case of its own, and the same ones have been closed, those whose end of
file was read. -/
theorem echo_servers_equal (κ : Type*) [DecidableEq κ] (listenfd : ℤ) (listenfd' epollfd : ℕ)
    (h : List (Event (Observed Select.Loop κ) (Select.Loop.Label × κ)))
    (x : Observed Select.Loop κ) (hrun : (Select.Loop.observed κ listenfd).Run h x)
    (hrest : ¬ x.server.Replying) (h' : List (Event (Observed Epoll κ) (Epoll.Label × κ)))
    (y : Observed Epoll κ) (hrun' : (Epoll.observed κ listenfd' epollfd).Run h' y)
    (hsame : ∀ c, (x.sessions.session c).input = (y.sessions.session c).input ∧
      (x.sessions.session c).ended = (y.sessions.session c).ended) (c : κ) :
    (x.sessions.session c).output = (y.sessions.session c).output ∧
      (x.sessions.session c).output = (x.sessions.session c).input.map toupper ∧
      (x.sessions.session c).closed = (y.sessions.session c).closed ∧
      (x.sessions.session c).closed = (x.sessions.session c).ended := by
  obtain ⟨hinput, hended⟩ := hsame c
  obtain ⟨houtput, hclosed⟩ := Select.Loop.echoes_of_run hrun hrest c
  obtain ⟨houtput', hclosed'⟩ := Epoll.echoes_of_run hrun' c
  refine ⟨?_, houtput, ?_, hclosed⟩
  · rw [houtput, houtput', hinput]
  · rw [hclosed, hclosed', hended]

theorem Select.Loop.run_step {listenfd : ℤ} {h : List (Event (Observed Loop κ) (Label × κ))}
    {x : Observed Loop κ} (hrun : (observed κ listenfd).Run h x) (l : Label) (c : κ)
    (henv : Env x.server l) (hfresh : ∀ connfd, l = .accept connfd → x.sessions.Fresh c)
    {s : Loop} {calls : List Call} (hstep : advance x.server l = some (s, calls)) :
    ∃ h', (observed κ listenfd).Run h' ⟨s, x.sessions.calls c l.connfd l.result calls⟩ :=
  ⟨_, hrun.step (l := (l, c)) ⟨henv, hfresh, calls, hstep, rfl⟩⟩

theorem Epoll.run_step {listenfd epollfd : ℕ} {h : List (Event (Observed Epoll κ) (Label × κ))}
    {x : Observed Epoll κ} (hrun : (observed κ listenfd epollfd).Run h x) (l : Label) (c : κ)
    (hreads : ReadsSucceed x.server l) (hfresh : Accepts x.server l → x.sessions.Fresh c)
    {s : Epoll} (hstep : next x.server l = some s) :
    ∃ h', (observed κ listenfd epollfd).Run h'
      ⟨s, x.sessions.calls c l.connfd l.result (callsOf x.server s)⟩ :=
  ⟨_, hrun.step (l := (l, c)) ⟨hreads, hfresh, hstep, rfl⟩⟩

/-- The `select` server at rest, after `ab` and the end of file of the connection `false` and `c`
of the connection `true`; both were ready in the same round. -/
theorem Select.Loop.run_two_connections : ∃ h x, (observed Bool 3).Run h x ∧
    ¬ x.server.Replying ∧ x.sessions.session false = ⟨[97, 98], [65, 66], true, true⟩ ∧
      x.sessions.session true = ⟨[99], [67], false, false⟩ := by
  obtain ⟨_, h₁⟩ := run_step (κ := Bool) (System.Run.start rfl) (.select 1 {3}) false
    (fun _ => ⟨by decide, rfl⟩) nofun (x := ⟨start 3, .empty⟩) rfl
  obtain ⟨_, h₂⟩ := run_step h₁ (.accept 4) false ⟨by decide, by decide, by decide, by decide⟩
    (fun _ _ => Sessions.empty_fresh false) rfl
  obtain ⟨_, h₃⟩ := run_step h₂ (.select 1 {3}) true (fun _ => ⟨by decide, rfl⟩) nofun rfl
  obtain ⟨_, h₄⟩ := run_step h₃ (.accept 5) true ⟨by decide, by decide, by decide, by decide⟩
    (fun _ _ => (Sessions.empty_fresh true).accept (c := false) (by decide) 4 .eof) rfl
  obtain ⟨_, h₅⟩ := run_step h₄ (.select 2 {4, 5}) false (fun _ => ⟨by decide, rfl⟩) nofun rfl
  obtain ⟨_, h₆⟩ := run_step h₅ (.slot (.data [97, 98])) false
    (fun _ _ _ _ _ => ⟨by decide, by decide, by decide⟩) nofun rfl
  obtain ⟨_, h₇⟩ := run_step h₆ .reply false trivial nofun rfl
  obtain ⟨_, h₈⟩ := run_step h₇ (.slot (.data [99])) true
    (fun _ _ _ _ _ => ⟨by decide, by decide, by decide⟩) nofun rfl
  obtain ⟨_, h₉⟩ := run_step h₈ .reply true trivial nofun rfl
  obtain ⟨_, h₁₀⟩ := run_step h₉ (.select 1 {4}) false (fun _ => ⟨by decide, rfl⟩) nofun rfl
  obtain ⟨_, h₁₁⟩ := run_step h₁₀ (.slot .eof) false (fun _ _ _ _ _ => ⟨le_rfl, trivial⟩) nofun
    rfl
  obtain ⟨h, h₁₂⟩ := run_step h₁₁ .reply false trivial nofun rfl
  exact ⟨h, _, h₁₂, nofun, rfl, rfl⟩

/-- The `epoll` server after the same; `true` connects first, `ab` comes in two pieces, and the
batches are others. -/
theorem Epoll.run_two_connections : ∃ h x, (observed Bool 3 4).Run h x ∧
    x.sessions.session false = ⟨[97, 98], [65, 66], true, true⟩ ∧
      x.sessions.session true = ⟨[99], [67], false, false⟩ := by
  obtain ⟨_, h₁⟩ := run_step (κ := Bool) (System.Run.start rfl)
    (.epollWait (some [⟨epollIn, 3⟩])) true nofun nofun (x := ⟨start 3 4, .empty⟩) rfl
  obtain ⟨_, h₂⟩ := run_step h₁ (.event 5 .eof) true (fun _ _ _ => ⟨le_rfl, trivial⟩)
    (fun _ => Sessions.empty_fresh true) rfl
  obtain ⟨_, h₃⟩ := run_step h₂ (.epollWait (some [⟨epollIn, 3⟩, ⟨epollIn, 5⟩])) false nofun nofun
    rfl
  obtain ⟨_, h₄⟩ := run_step h₃ (.event 6 .eof) false (fun _ _ _ => ⟨le_rfl, trivial⟩)
    (fun _ => (Sessions.empty_fresh false).accept (c := true) (by decide) 5 .eof) rfl
  obtain ⟨_, h₅⟩ := run_step h₄ (.event 0 (.data [99])) true
    (fun _ _ _ => ⟨by decide, by decide, by decide⟩) nofun rfl
  obtain ⟨_, h₆⟩ := run_step h₅ (.epollWait (some [⟨epollIn, 6⟩])) false nofun nofun rfl
  obtain ⟨_, h₇⟩ := run_step h₆ (.event 0 (.data [97])) false
    (fun _ _ _ => ⟨by decide, by decide, by decide⟩) nofun rfl
  obtain ⟨_, h₈⟩ := run_step h₇ (.epollWait (some [⟨epollIn, 6⟩])) false nofun nofun rfl
  obtain ⟨_, h₉⟩ := run_step h₈ (.event 0 (.data [98])) false
    (fun _ _ _ => ⟨by decide, by decide, by decide⟩) nofun rfl
  obtain ⟨_, h₁₀⟩ := run_step h₉ (.epollWait (some [⟨epollIn, 6⟩])) false nofun nofun rfl
  obtain ⟨h, h₁₁⟩ := run_step h₁₀ (.event 0 .eof) false (fun _ _ _ => ⟨le_rfl, trivial⟩) nofun rfl
  exact ⟨h, _, h₁₁, rfl, rfl⟩

/-- One connection is closed and one still open, in a run of each server. -/
theorem echo_servers_equal_two_connections : ∃ h x h' y,
    (Select.Loop.observed Bool 3).Run h x ∧ (Epoll.observed Bool 3 4).Run h' y ∧
      (x.sessions.session false).output = [65, 66] ∧ (x.sessions.session true).output = [67] ∧
      ∀ c, (x.sessions.session c).output = (y.sessions.session c).output ∧
        (x.sessions.session c).closed = (y.sessions.session c).closed := by
  obtain ⟨h, x, hrun, hrest, hfalse, htrue⟩ := Select.Loop.run_two_connections
  obtain ⟨h', y, hrun', hfalse', htrue'⟩ := Epoll.run_two_connections
  have hsame : ∀ c, x.sessions.session c = y.sessions.session c := by
    intro c
    cases c with
    | false => rw [hfalse, hfalse']
    | true => rw [htrue, htrue']
  refine ⟨h, x, h', y, hrun, hrun', by rw [hfalse], by rw [htrue], fun c => ?_⟩
  obtain ⟨houtput, -, hclosed, -⟩ := echo_servers_equal Bool 3 3 4 h x hrun hrest h' y hrun'
    (fun c => ⟨by rw [hsame], by rw [hsame]⟩) c
  exact ⟨houtput, hclosed⟩

end LinuxExercise.Servers
