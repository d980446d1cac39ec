import LinuxExercise.Servers.LineClient
import LinuxExercise.Servers.SelectLoop

/-!
# The line client and the `select` server

The two programs run side by side, call by call, over a connection that is a pair of byte
streams.  A `read` takes any nonempty beginning of a stream, so what one side writes in one call
reaches the other in any pieces.  The other clients of the server are in what its calls may
return for their descriptors.

`flow_of_server` is what a step of the server does to the bytes: they move from the stream to
the server, through it and back, in order.  Everything about the client's output rests on it.
-/

namespace LinuxExercise.Servers

/-- The server's end of the client's connection. -/
inductive Link
  /-- Not accepted yet. -/
  | backlog
  | opened (fd : ℤ)
  | closed
  deriving DecidableEq

/-- The client, the server and the connection between them. -/
structure Exchange where
  client : LineClient
  server : Select.Loop
  link : Link
  /-- Written by the client and not read by the server yet. -/
  toServer : List UInt8
  /-- Written by the server and not read by the client yet. -/
  toClient : List UInt8

namespace Exchange

open Select.Loop (not_replying_of_select not_replying_of_accept not_replying_of_scan)

/-- The client's next call, or the server's; `own` says that an `accept` takes the connection of
this client. -/
inductive Label
  | client (l : LineClient.Label)
  | server (l : Select.Loop.Label) (own : Bool)

/-! ## The steps -/

/-- What a `read` of a stream may return: some bytes from its beginning, or end of file once the
other side has closed it. -/
def Returns (stream : List UInt8) (ended : Prop) : ReadResult → Prop
  | .data bytes => (ReadResult.data bytes).Valid ∧ bytes <+: stream
  | .eof => stream = [] ∧ ended
  | .error _ => False

/-- What the client's call does to the connection. -/
def clientCall (x : Exchange) : LineClient.Label → Exchange
  | .write => { x with toServer := x.toServer ++ x.client.request }
  | .read r => { x with toClient := x.toClient.drop r.n.toNat }
  | _ => x

/-- What a call of the server does to the connection. -/
def serverCall (l : Select.Loop.Label) (own : Bool) (x : Exchange) (c : Call) : Exchange :=
  match l, c with
  | .accept connfd, .accept => if own then { x with link := .opened connfd } else x
  | .slot r, .read fd =>
    if x.link = .opened fd then { x with toServer := x.toServer.drop r.n.toNat } else x
  | _, .write fd buf count =>
    if x.link = .opened fd then { x with toClient := x.toClient ++ buf.take count } else x
  | _, .close fd => if x.link = .opened fd then { x with link := .closed } else x
  | _, _ => x

def step (x : Exchange) : Label → Option Exchange
  | .client l => (x.client.step l).map fun c => { x.clientCall l with client := c }
  | .server l own => (x.server.advance l).map fun r =>
      r.2.foldl (serverCall l own) { x with server := r.1 }

/-- The client has closed the connection. -/
def Ended (x : Exchange) : Prop := ∃ status, x.client.pc = .returned status

/-- The server has closed the connection. -/
def HungUp (x : Exchange) : Prop := x.link = .closed ∨ x.server.vars.exited ≠ none

/-- There is a descriptor for a new connection, and a slot of `client[]`. -/
def Room (s : Select) : Prop :=
  ¬ Select.TableFull s ∧ ∃ connfd : ℤ, 0 ≤ connfd ∧ connfd < fdSetSize ∧
    connfd ≠ s.listenfd ∧ connfd ∉ s.connections

/-- `select` reports the client's connection when there is something to read from it, and a new
connection when there is room for one. -/
def Selects (x : Exchange) (nready : ℤ) (rset : Finset ℤ) : Prop :=
  0 ≤ nready → (∀ fd ∈ rset, x.link = .opened fd → x.toServer ≠ [] ∨ x.Ended) ∧
    (x.server.vars.listenfd ∈ rset → Room x.server.vars)

/-- What the calls may return. -/
def Env (x : Exchange) : Label → Prop
  | .client (.read r) => Returns x.toClient x.HungUp r
  | .client _ => True
  | .server l own => x.server.Env l ∧
      match l with
      | .select nready rset => x.Selects nready rset
      | .accept _ => own = true → x.link = .backlog
      | .slot r => ∀ rset nready i, x.server.pc = .scan rset nready i →
          Select.ready rset x.server.vars i = true →
          x.link = .opened (x.server.vars.client i) → Returns x.toServer x.Ended r
      | .reply => True

/-- The client has connected and is about to read its input; the server is about to start. -/
def start (listenfd : ℤ) (input : List UInt8) : Exchange :=
  ⟨.start input, .start listenfd, .backlog, [], []⟩

/-- The two programs side by side. -/
def system (listenfd : ℤ) (input : List UInt8) : System Exchange Label where
  init x := x = start listenfd input
  step x l x' := x.Env l ∧ x.step l = some x'

/-- What the server has read from the client and not echoed yet: it is between line 88 and
line 98. -/
def held (x : Exchange) : List UInt8 :=
  match x.server.pc with
  | .reply _ _ i (.data bytes) => if x.link = .opened (x.server.vars.client i) then bytes else []
  | _ => []

theorem held_of_idle {x : Exchange} (hidle : ¬ x.server.Replying) : x.held = [] := by
  unfold held
  split
  · next heq => exact (hidle ⟨_, _, _, _, heq⟩).elim
  · rfl

/-! ## What a step of the server does -/

theorem server_cases {x x' : Exchange} {l : Select.Loop.Label} {own : Bool}
    (h : x.step (.server l own) = some x') :
    ∃ server calls, Select.Loop.advance x.server l = some (server, calls) ∧
      x' = calls.foldl (serverCall l own) { x with server := server } := by
  obtain ⟨⟨server, calls⟩, hstep, rfl⟩ := Option.map_eq_some_iff.mp h
  exact ⟨server, calls, hstep, rfl⟩

/-- The calls touch the connection only. -/
theorem serverCalls_server (l : Select.Loop.Label) (own : Bool) (calls : List Call)
    (x : Exchange) : (calls.foldl (serverCall l own) x).server = x.server := by
  induction calls generalizing x with
  | nil => rfl
  | cons c calls ih =>
    apply (ih _).trans
    unfold serverCall
    split
    case h_5 => rfl
    all_goals split <;> rfl

/-- What is under way from the client's `write` back to its `read`, as the client will see it. -/
def flow (x : Exchange) : List UInt8 := x.toClient ++ (x.held ++ x.toServer).map toupper

theorem flow_of_idle {x : Exchange} (hidle : ¬ x.server.Replying) :
    x.flow = x.toClient ++ x.toServer.map toupper := by
  rw [flow, held_of_idle hidle, List.nil_append]

/-- A `read` of the client's connection takes what it returns from the stream. -/
theorem returns_buf {stream : List UInt8} {ended : Prop} {r : ReadResult}
    (h : Returns stream ended r) : ∃ bytes, stream = bytes ++ stream.drop r.n.toNat ∧
      (r = .data bytes ∧ (ReadResult.data bytes).Valid ∨ r = .eof ∧ bytes = [] ∧ ended) := by
  cases r with
  | data bytes =>
    exact ⟨bytes, List.prefix_append_drop h.2, .inl ⟨rfl, h.1⟩⟩
  | eof => exact ⟨[], rfl, .inr ⟨rfl, rfl, h.2⟩⟩
  | error => exact h.elim

/-- The server passes the bytes on. -/
theorem flow_of_server {x x' : Exchange} {l : Select.Loop.Label} {own : Bool}
    (hinv : x.server.Inv) (henv : x.Env (.server l own))
    (hstep : x.step (.server l own) = some x') : x'.client = x.client ∧ x'.flow = x.flow := by
  obtain ⟨server, calls, hadvance, rfl⟩ := server_cases hstep
  cases Select.Loop.stepped_of_advance hadvance with
  | fail hpc =>
    refine ⟨rfl, ?_⟩
    rw [flow_of_idle (not_replying_of_select hpc)]
    exact flow_of_idle (not_replying_of_select rfl)
  | select hpc _ _ hnext =>
    refine ⟨rfl, ?_⟩
    rw [flow_of_idle (not_replying_of_select hpc)]
    rcases hnext with ⟨-, rfl⟩ | ⟨-, rfl⟩
    · exact flow_of_idle (not_replying_of_accept rfl)
    · exact flow_of_idle (not_replying_of_scan rfl)
  | accept hpc hnext =>
    rw [flow_of_idle (not_replying_of_accept hpc)]
    rcases hnext with rfl | ⟨-, rfl⟩
    · cases own <;> exact ⟨rfl, flow_of_idle (not_replying_of_select rfl)⟩
    · cases own <;> exact ⟨rfl, flow_of_idle (not_replying_of_scan rfl)⟩
  | skip hpc hnext =>
    refine ⟨rfl, ?_⟩
    rw [flow_of_idle (not_replying_of_scan hpc)]
    rcases hnext with rfl | rfl
    · exact flow_of_idle (not_replying_of_select rfl)
    · exact flow_of_idle (not_replying_of_scan rfl)
  | @read rset nready i r hpc hready =>
    rw [flow_of_idle (not_replying_of_scan hpc)]
    by_cases hown : x.link = .opened (x.server.vars.client i)
    · obtain ⟨bytes, hstream, hr⟩ := returns_buf (henv.2 rset nready i hpc hready hown)
      simp only [List.foldl_cons, List.foldl_nil, serverCall, if_pos hown]
      refine ⟨trivial, ?_⟩
      rcases hr with ⟨rfl, -⟩ | ⟨rfl, rfl, -⟩
      · simp only [flow, held, if_pos hown]
        rw [← hstream]
      · rfl
    · simp only [List.foldl_cons, List.foldl_nil, serverCall, if_neg hown]
      refine ⟨trivial, ?_⟩
      cases r <;> simp [flow, held, hown]
  | @reply rset nready i r pc hpc hnext =>
    have hidle : ¬ Select.Loop.Replying ⟨(Select.Loop.handle r i x.server.vars).1, pc⟩ := by
      rcases hnext with rfl | rfl
      · exact not_replying_of_select rfl
      · exact not_replying_of_scan rfl
    obtain ⟨-, hn, hvalid⟩ := hinv.served rset nready i r hpc
    cases r with
    | data bytes =>
      obtain ⟨buf, count, hecho, htake⟩ := echo_data hvalid (x.server.vars.client i)
      have hcall : (Select.Loop.handle (.data bytes) i x.server.vars).2 =
          .write (x.server.vars.client i) buf count := by
        rw [Select.Loop.handle_call, if_neg (data_n_ne_zero hvalid), hecho]
      rw [hcall]
      by_cases hown : x.link = .opened (x.server.vars.client i)
      · simp only [List.foldl_cons, List.foldl_nil, serverCall, if_pos hown]
        refine ⟨trivial, (flow_of_idle hidle).trans ?_⟩
        simp only [flow, held, hpc, if_pos hown, htake, List.map_append, List.append_assoc]
      · simp only [List.foldl_cons, List.foldl_nil, serverCall, if_neg hown]
        refine ⟨trivial, (flow_of_idle hidle).trans ?_⟩
        simp only [flow, held, hpc, if_neg hown, List.nil_append]
    | eof =>
      have hcall : (Select.Loop.handle .eof i x.server.vars).2 =
          .close (x.server.vars.client i) := rfl
      have hflow : x.flow = x.toClient ++ x.toServer.map toupper := by
        simp only [flow, held, hpc, List.nil_append]
      rw [hcall, hflow]
      simp only [List.foldl_cons, List.foldl_nil, serverCall]
      split <;> exact ⟨rfl, flow_of_idle hidle⟩
    | error => exact absurd hn (by simp [ReadResult.n])

/-- The server steps only while it is running. -/
theorem running_of_advance {s s' : Select.Loop} (hinv : s.Inv) {l : Select.Loop.Label}
    {calls : List Call} (h : Select.Loop.advance s l = some (s', calls)) :
    s.vars.exited = none := by
  cases Select.Loop.stepped_of_advance h with
  | fail _ hrunning => exact hrunning
  | select _ hrunning => exact hrunning
  | accept hpc => exact hinv.exited_eq hpc nofun
  | skip hpc => exact hinv.exited_eq hpc nofun
  | read hpc => exact hinv.exited_eq hpc nofun
  | reply hpc => exact hinv.exited_eq hpc nofun

/-! ## The invariant -/

/-- The server's end of the connection is one of its open descriptors, and it is closed only
after the client's end. -/
structure Linked (x : Exchange) : Prop where
  opened : ∀ fd, x.link = .opened fd → fd ∈ x.server.vars.connections
  closing : ∀ rset nready i, x.server.pc = .reply rset nready i .eof →
    x.link = .opened (x.server.vars.client i) → x.Ended
  closed : x.link = .closed → x.Ended

/-- Every byte sent is on its way or has been printed, in order, unless the client was told that
the server is gone; and while the client waits for a reply there is a byte it has not printed. -/
structure Inv (input : List UInt8) (x : Exchange) : Prop where
  server : x.server.Inv
  linked : x.Linked
  input : x.client.Input input
  request : x.client.pc = .write → x.client.request ≠ []
  waiting : x.client.pc = .read → x.client.stdout.length < x.client.sent.length
  output : x.client.pc ≠ .returned 1 →
    x.client.stdout ++ x.client.unprinted ++ x.flow = x.client.sent.map toupper
  told : x.client.pc = .returned 1 → x.server.vars.exited ≠ none ∧
    ∃ printed, printed <+: x.client.sent.map toupper ∧
      x.client.stdout = printed ++ LineClient.notice

theorem start_inv (listenfd : ℤ) (input : List UInt8) : (start listenfd input).Inv input where
  server := Select.Loop.start_inv listenfd
  linked := ⟨nofun, nofun, nofun⟩
  input := LineClient.start_input input
  request := nofun
  waiting := nofun
  output _ := rfl
  told := nofun

/-- Between two services there is nothing to close. -/
theorem Linked.of_idle {x : Exchange} (hidle : ¬ x.server.Replying)
    (hopened : ∀ fd, x.link = .opened fd → fd ∈ x.server.vars.connections)
    (hclosed : x.link = .closed → x.Ended) : x.Linked :=
  ⟨hopened, fun _ _ _ hpc => absurd ⟨_, _, _, _, hpc⟩ hidle, hclosed⟩

theorem Linked.server {x x' : Exchange} {l : Select.Loop.Label} {own : Bool} (h : x.Linked)
    (hinv : x.server.Inv) (henv : x.Env (.server l own))
    (hstep : x.step (.server l own) = some x') : x'.Linked := by
  obtain ⟨server, calls, hadvance, rfl⟩ := server_cases hstep
  obtain ⟨hopened, hclosing, hclosed⟩ := h
  cases Select.Loop.stepped_of_advance hadvance with
  | fail => exact .of_idle (not_replying_of_select rfl) hopened hclosed
  | select _ _ _ hnext =>
    rcases hnext with ⟨-, rfl⟩ | ⟨-, rfl⟩
    · exact .of_idle (not_replying_of_accept rfl) hopened hclosed
    · exact .of_idle (not_replying_of_scan rfl) hopened hclosed
  | @accept rset nready connfd pc hpc hnext =>
    have hconn := Select.acceptClient_connections henv.1.1 x.server.vars
    have hidle : ¬ Select.Loop.Replying ⟨Select.acceptClient connfd x.server.vars, pc⟩ := by
      rcases hnext with rfl | ⟨-, rfl⟩
      · exact not_replying_of_select rfl
      · exact not_replying_of_scan rfl
    cases own with
    | false =>
      refine .of_idle hidle (fun fd hfd => ?_) hclosed
      exact hconn ▸ Finset.mem_insert_of_mem (hopened fd hfd)
    | true =>
      refine .of_idle hidle (fun fd hfd => ?_) fun heq => by cases heq
      exact hconn ▸ Link.opened.inj hfd ▸ Finset.mem_insert_self ..
  | skip _ hnext =>
    rcases hnext with rfl | rfl
    · exact .of_idle (not_replying_of_select rfl) hopened hclosed
    · exact .of_idle (not_replying_of_scan rfl) hopened hclosed
  | @read rset nready i r hpc hready =>
    have hended : x.link = .opened (x.server.vars.client i) → r = .eof → x.Ended := by
      rintro hown rfl
      exact (henv.2 rset nready i hpc hready hown).2
    simp only [List.foldl_cons, List.foldl_nil, serverCall]
    split
    · refine ⟨hopened, fun _ _ j heq hown => ?_, hclosed⟩
      obtain ⟨-, -, rfl, hr⟩ := Select.Loop.Pc.reply.inj heq
      exact hended hown hr
    · refine ⟨hopened, fun _ _ j heq hown => ?_, hclosed⟩
      obtain ⟨-, -, rfl, hr⟩ := Select.Loop.Pc.reply.inj heq
      exact hended hown hr
  | @reply rset nready i r pc hpc hnext =>
    have hidle : ¬ Select.Loop.Replying ⟨(Select.Loop.handle r i x.server.vars).1, pc⟩ := by
      rcases hnext with rfl | rfl
      · exact not_replying_of_select rfl
      · exact not_replying_of_scan rfl
    obtain ⟨-, hn, hvalid⟩ := hinv.served rset nready i r hpc
    cases r with
    | data bytes =>
      have hhandle : Select.Loop.handle (.data bytes) i x.server.vars =
          (x.server.vars, echo (x.server.vars.client i) (.data bytes)) := by
        rw [Select.Loop.handle, if_neg (data_n_ne_zero hvalid)]
      rw [hhandle] at hidle ⊢
      simp only [List.foldl_cons, List.foldl_nil, serverCall, echo]
      split <;> exact .of_idle hidle hopened hclosed
    | eof =>
      have hcall : (Select.Loop.handle .eof i x.server.vars).2 =
          .close (x.server.vars.client i) := rfl
      rw [hcall]
      simp only [List.foldl_cons, List.foldl_nil, serverCall]
      split
      · next hown =>
        exact .of_idle hidle (fun _ heq => by cases heq) fun _ => hclosing rset nready i hpc hown
      · next hown =>
        refine .of_idle hidle (fun fd hfd => ?_) hclosed
        have hne : fd ≠ x.server.vars.client i := fun heq => hown (heq ▸ hfd)
        exact Finset.mem_erase_of_ne_of_mem hne (hopened fd hfd)
    | error => exact absurd hn (by simp [ReadResult.n])

theorem Inv.server_step {input : List UInt8} {x x' : Exchange} {l : Select.Loop.Label} {own : Bool}
    (h : x.Inv input) (henv : x.Env (.server l own))
    (hstep : x.step (.server l own) = some x') : x'.Inv input := by
  obtain ⟨hclient, hflow⟩ := flow_of_server h.server henv hstep
  have hlinked := h.linked.server h.server henv hstep
  obtain ⟨server, calls, hadvance, hx'⟩ := server_cases hstep
  have hrunning := running_of_advance h.server hadvance
  have hserver : x'.server = server := hx' ▸ serverCalls_server ..
  obtain ⟨hinv, -, hinput, hrequest, hwaiting, houtput, htold⟩ := h
  rw [← hclient] at hinput hrequest hwaiting houtput htold
  rw [← hflow] at houtput
  refine ⟨hserver ▸ hinv.advance henv.1 hadvance, hlinked, hinput, hrequest, hwaiting, houtput,
    fun hpc => absurd hrunning (htold hpc).1⟩

/-- Nothing has been closed before the client closes its end. -/
theorem Linked.client {x x' : Exchange} (h : x.Linked) (hopen : ¬ x.Ended)
    (hserver : x'.server = x.server) (hlink : x'.link = x.link) : x'.Linked := by
  obtain ⟨hopened, hclosing, hclosed⟩ := h
  rw [← hserver, ← hlink] at hopened hclosing
  rw [← hlink] at hclosed
  exact ⟨hopened, fun _ _ _ hpc hown => absurd (hclosing _ _ _ hpc hown) hopen,
    fun hlink => absurd (hclosed hlink) hopen⟩

/-- Until the client ends there is nothing between it and its output, except at line 29. -/
theorem Inv.printed {input : List UInt8} {x : Exchange} (h : x.Inv input)
    (hopen : ¬ x.Ended) (hprint : x.client.pc ≠ .print) :
    x.client.stdout ++ x.flow = x.client.sent.map toupper := by
  have hout := h.output fun hpc => hopen ⟨1, hpc⟩
  rwa [LineClient.unprinted, if_neg hprint, List.append_nil] at hout

/-- While the client waits, a byte is under way. -/
theorem Inv.in_flight {input : List UInt8} {x : Exchange} (h : x.Inv input)
    (hpc : x.client.pc = .read) : 0 < x.toServer.length + x.held.length + x.toClient.length := by
  have hout := h.output (by rw [hpc]; nofun)
  rw [LineClient.unprinted, hpc, if_neg nofun, List.append_nil] at hout
  have hlen := congrArg List.length hout
  have hwaiting := h.waiting hpc
  simp only [flow, List.length_append, List.length_map] at hlen
  omega

theorem not_ended_of_pc {x : Exchange} {pc : LineClient.Pc} (hpc : x.client.pc = pc)
    (hne : ∀ status, pc ≠ .returned status) : ¬ x.Ended :=
  fun ⟨status, hreturned⟩ => hne status (hpc.symm.trans hreturned)

theorem Inv.fgets {input : List UInt8} (hnul : 0 ∉ input) {x : Exchange} (h : x.Inv input)
    (hpc : x.client.pc = .fgets) (hinput : x.client.fgets.Input input) :
    Inv input { x with client := x.client.fgets } := by
  have hopen := not_ended_of_pc hpc (by simp)
  have hout := h.printed hopen (by simp [hpc])
  by_cases hmore : x.client.stdin = []
  · have hfgets : x.client.fgets = { x.client with pc := .returned 0 } := if_pos hmore
    rw [hfgets] at hinput ⊢
    refine ⟨h.server, h.linked.client hopen rfl rfl, hinput, by simp, by simp,
      fun _ => ?_, by simp⟩
    show x.client.stdout ++ [] ++ x.flow = _
    rw [List.append_nil]
    exact hout
  · have hstdin : 0 ∉ x.client.stdin := fun hmem => hnul (h.input ▸ List.mem_append_right _ hmem)
    have hnext : x.client.fgets.request ≠ [] := by
      rw [LineClient.fgets_request hstdin hmore]
      exact lineOf_ne_nil 78 hmore
    have hpc' : x.client.fgets.pc = .write := by rw [LineClient.fgets, if_neg hmore]
    have hkept : x.client.fgets.stdout = x.client.stdout ∧
        x.client.fgets.sent = x.client.sent := by
      rw [LineClient.fgets, if_neg hmore]
      exact ⟨rfl, rfl⟩
    refine ⟨h.server, h.linked.client hopen rfl rfl, hinput, fun _ => hnext,
      fun hread => absurd (hpc'.symm.trans hread) (by simp), fun _ => ?_,
      fun htold => absurd (hpc'.symm.trans htold) (by simp)⟩
    show x.client.fgets.stdout ++ x.client.fgets.unprinted ++ x.flow =
      x.client.fgets.sent.map toupper
    rw [LineClient.unprinted, hpc', if_neg (by simp), List.append_nil, hkept.1, hkept.2]
    exact hout

/-- From the `write` on there is one byte more to come than has been printed. -/
theorem Inv.write {input : List UInt8} {x : Exchange} (h : x.Inv input)
    (hpc : x.client.pc = .write) (hinput : x.client.write.Input input) :
    Inv input { x with
      client := x.client.write, toServer := x.toServer ++ x.client.request } := by
  have hopen := not_ended_of_pc hpc nofun
  have hout := h.printed hopen (by rw [hpc]; nofun)
  refine ⟨h.server, h.linked.client hopen rfl rfl, hinput, nofun, fun _ => ?_, fun _ => ?_, nofun⟩
  · have hlen := congrArg List.length hout
    have hsome := List.length_pos_iff.mpr (h.request hpc)
    rw [List.length_append, List.length_map] at hlen
    show x.client.stdout.length < (x.client.sent ++ x.client.request).length
    rw [List.length_append]
    omega
  · show x.client.stdout ++ [] ++ (x.toClient ++
      (x.held ++ (x.toServer ++ x.client.request)).map toupper) =
      (x.client.sent ++ x.client.request).map toupper
    simp only [List.append_nil, List.map_append]
    rw [← hout]
    simp only [flow, List.map_append, List.append_assoc]

theorem Inv.read {input : List UInt8} {x : Exchange} (h : x.Inv input)
    (hpc : x.client.pc = .read) {r : ReadResult} (hr : Returns x.toClient x.HungUp r)
    (hinput : (x.client.read r).Input input) :
    Inv input { x with
      client := x.client.read r, toClient := x.toClient.drop r.n.toNat } := by
  have hopen := not_ended_of_pc hpc (by simp)
  have hout := h.printed hopen (by simp [hpc])
  obtain ⟨bytes, hstream, ⟨rfl, hvalid⟩ | ⟨rfl, rfl, hgone⟩⟩ := returns_buf hr
  · obtain ⟨hpc', hreply⟩ := LineClient.read_reply hvalid x.client
    have hkept : (x.client.read (.data bytes)).stdout = x.client.stdout ∧
        (x.client.read (.data bytes)).sent = x.client.sent := by
      rw [LineClient.read, if_neg (data_n_ne_zero hvalid)]
      exact ⟨rfl, rfl⟩
    refine ⟨h.server, h.linked.client hopen rfl rfl, hinput,
      fun hwrite => absurd (hpc'.symm.trans hwrite) (by simp),
      fun hread => absurd (hpc'.symm.trans hread) (by simp), fun _ => ?_,
      fun htold => absurd (hpc'.symm.trans htold) (by simp)⟩
    show (x.client.read (.data bytes)).stdout ++ (x.client.read (.data bytes)).unprinted ++
      (x.toClient.drop (ReadResult.data bytes).n.toNat ++ (x.held ++ x.toServer).map toupper) =
      (x.client.read (.data bytes)).sent.map toupper
    rw [LineClient.unprinted, hpc', if_pos rfl, hreply, hkept.1, hkept.2, ← hout, flow,
      List.append_assoc, ← List.append_assoc bytes, ← hstream]
  · have hpc' : (x.client.read .eof).pc = .returned 1 := rfl
    refine ⟨h.server, h.linked.client hopen rfl rfl, hinput,
      fun hwrite => absurd (hpc'.symm.trans hwrite) (by simp),
      fun hread => absurd (hpc'.symm.trans hread) (by simp),
      fun hopen' => absurd hpc' hopen', fun _ => ⟨?_, x.client.stdout, ⟨_, hout⟩, rfl⟩⟩
    rcases hgone with hclosed | hexit
    · exact absurd (h.linked.closed hclosed) hopen
    · exact hexit

theorem Inv.print {input : List UInt8} {x : Exchange} (h : x.Inv input)
    (hpc : x.client.pc = .print) (hinput : x.client.print.Input input) :
    Inv input { x with client := x.client.print } := by
  have hopen := not_ended_of_pc hpc nofun
  have hout := h.output (by rw [hpc]; nofun)
  rw [LineClient.unprinted, if_pos hpc] at hout
  refine ⟨h.server, h.linked.client hopen rfl rfl, hinput, nofun, nofun, fun _ => ?_, nofun⟩
  show x.client.stdout ++ x.client.reply ++ [] ++ x.flow = x.client.sent.map toupper
  rw [List.append_nil]
  exact hout

theorem Inv.step {input : List UInt8} (hnul : 0 ∉ input) {x x' : Exchange} {l : Label}
    (h : x.Inv input) (henv : x.Env l) (hstep : x.step l = some x') : x'.Inv input := by
  cases l with
  | server l own => exact h.server_step henv hstep
  | client l =>
    obtain ⟨c, hc, rfl⟩ := Option.map_eq_some_iff.mp hstep
    have hinput := h.input.step hnul hc
    cases LineClient.stepped_of_step hc with
    | fgets hpc => exact h.fgets hnul hpc hinput
    | write hpc => exact h.write hpc hinput
    | read r hpc => exact h.read hpc henv hinput
    | print hpc => exact h.print hpc hinput

end Exchange

end LinuxExercise.Servers
