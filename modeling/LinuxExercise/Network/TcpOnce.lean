import LinuxExercise.Framework.Termination
import LinuxExercise.Framework.Threads
import LinuxExercise.Servers.Kernel

/-!
# One request on a connection (`011network/01TCP/src/01server.c`, `01client.c`)

The server takes the connections one after the other: it reads once, upper-cases what it has got,
writes it back and closes.  A client writes its argument, reads once and prints.  There is any
number of clients, and they and the server run in any order.

A `read` of a stream returns what has arrived, which may be a part of what was written, and this
is so at either end; a server that closes without having read everything resets the connection,
and the client's `read` may then fail.  So a client prints the upper-case of some part of the
beginning of its argument (`tcp_once`).

A client whose argument is the empty string writes nothing and waits for a reply, while the
server waits for its request: from then on nobody is served.  With arguments that are not empty
all clients come to their end, and without that condition they never do.

A client's `write` and the server's are taken to fit into the buffers of the connection;
failures of `socket`, `connect` and `accept`, the address that the server prints, and clients
that are killed are left out.
-/

namespace LinuxExercise.Network

open Servers (toupper upperLoop take_upperLoop)

namespace TcpOnce

/-- `BUF_SIZE` -/
def bufSize : ℕ := 8 * 1024

/-- The connections that can wait for `accept`: `listen(sockfd,128)`. -/
def backlog : ℕ := 128

/-- A connection, seen by the kernel of the server. -/
inductive Conn
  | unconnected
  /-- Waits for `accept`. -/
  | queued
  | accepted
  /-- Closed by the server; there were bytes left to read if it is `reset`. -/
  | closed (reset : Bool)
  deriving DecidableEq, Repr

/-- Where a client is. -/
inductive ClientPc
  /-- `connect(connfd,&serveraddr,sizeof(serveraddr))` -/
  | connect
  /-- `write(connfd,argv[1],strlen(argv[1]))` -/
  | write
  /-- `len = read(connfd,buf,sizeof(buf))` -/
  | read
  /-- `write(STDOUT_FILENO,buf,len)` -/
  | print
  /-- `close(connfd)` -/
  | close
  | exited
  deriving DecidableEq, Repr

/-- A client, with its connection. -/
structure Client where
  pc : ClientPc
  /-- `argv[1]` -/
  msg : List UInt8
  conn : Conn
  /-- The bytes the client has written. -/
  sent : List UInt8
  /-- How many of them the server has read. -/
  taken : ℕ
  /-- The bytes the server has written. -/
  reply : List UInt8
  /-- What `read` has stored in `buf`, and nothing if it returned `-1`. -/
  got : Option (List UInt8)
  stdout : List UInt8
  deriving DecidableEq, Repr

/-- Where the server is, and with which client. -/
inductive ServerPc
  /-- `confd = accept(...)` -/
  | accept
  /-- `readlen = read(confd,readBuf,sizeof(readBuf))`, after `bzero` -/
  | read (i : ℕ)
  /-- `write(confd,readBuf,readlen)`, after the loop -/
  | write (i : ℕ)
  /-- `close(confd)` -/
  | close (i : ℕ)
  deriving DecidableEq, Repr

end TcpOnce

open TcpOnce in
/-- The server and its clients. -/
structure TcpOnce where
  server : ServerPc
  readBuf : List UInt8
  readlen : ℕ
  /-- The connections that wait for `accept`, in the order in which they were made. -/
  queue : List ℕ
  clients : List Client
  /-- History: the clients that have connected, in order. -/
  connected : List ℕ
  /-- History: the clients whose connection the server has closed, in order. -/
  served : List ℕ
  deriving DecidableEq, Repr

namespace TcpOnce

/-- A statement of a client.  A `read` returns some of the bytes that are there, or fails after
a reset; a `write` of `-1` bytes fails too. -/
def stepClient (n : Option ℕ) (c : Client) : Option Client :=
  match c.pc with
  | .connect => some { c with pc := .write, conn := .queued }
  | .write => some { c with pc := .read, sent := c.msg }
  | .read =>
    match n with
    | some n =>
      if 0 < n ∧ n ≤ c.reply.length ∧ n ≤ bufSize then
        some { c with pc := .print, got := some (c.reply.take n) }
      else none
    | none => if c.conn = .closed true then some { c with pc := .print, got := none } else none
  | .print => some { c with pc := .close, stdout := c.stdout ++ c.got.getD [] }
  | .close => some { c with pc := .exited }
  | .exited => none

/-- What the server does to the connection with client `i`. -/
def onClient (s : TcpOnce) (i : ℕ) (f : Client → Option Client) : Option (List Client) :=
  match s.clients[i]? with
  | none => none
  | some c => (f c).map fun c' => s.clients.set i c'

/-- A `read` of the server that returns `n` bytes. -/
def Client.give (n : ℕ) (c : Client) : Option Client :=
  if 0 < n ∧ n ≤ (c.sent.drop c.taken).length ∧ n ≤ bufSize then
    some { c with taken := c.taken + n }
  else none

/-- `readBuf` after `bzero`, a `read` of `n` bytes of client `i` and the loop. -/
def request (s : TcpOnce) (i n : ℕ) : List UInt8 :=
  match s.clients[i]? with
  | none => []
  | some c =>
    upperLoop n ((c.sent.drop c.taken).take n ++ (List.replicate bufSize 0).drop n)

/-- A statement of the server.  A `read` waits until there is something, and returns `n` bytes of
it. -/
def stepServer (n : ℕ) (s : TcpOnce) : Option TcpOnce :=
  match s.server with
  | .accept =>
    match s.queue with
    | [] => none
    | i :: rest =>
      (s.onClient i fun c => some { c with conn := .accepted }).map fun clients =>
        { s with server := .read i, queue := rest, clients := clients }
  | .read i =>
    (s.onClient i (Client.give n)).map fun clients =>
      { s with server := .write i, readBuf := s.request i n, readlen := n, clients := clients }
  | .write i =>
    (s.onClient i fun c => some { c with reply := c.reply ++ s.readBuf.take s.readlen }).map
      fun clients => { s with server := .close i, clients := clients }
  | .close i =>
    (s.onClient i fun c =>
        some { c with conn := .closed (decide (c.taken < c.sent.length)) }).map fun clients =>
      { s with server := .accept, clients := clients, served := s.served ++ [i] }

inductive Label
  | server (n : ℕ)
  | client (i : ℕ) (n : Option ℕ)
  deriving DecidableEq, Repr

def next (s : TcpOnce) : Label → Option TcpOnce
  | .server n => s.stepServer n
  | .client i n =>
    match s.clients[i]? with
    | none => none
    | some c =>
      if c.pc = .connect then
        if s.queue.length ≤ backlog then
          (stepClient n c).map fun c' =>
            { s with
              clients := s.clients.set i c'
              queue := s.queue ++ [i], connected := s.connected ++ [i] }
        else none
      else (stepClient n c).map fun c' => { s with clients := s.clients.set i c' }

/-- A client that is to send `msg`. -/
def Client.start (msg : List UInt8) : Client :=
  ⟨.connect, msg, .unconnected, [], 0, [], none, []⟩

def start (msgs : List (List UInt8)) : TcpOnce where
  server := .accept
  readBuf := []
  readlen := 0
  queue := []
  clients := msgs.map Client.start
  connected := []
  served := []

/-- The server and a client for each of `msgs`. -/
def program (msgs : List (List UInt8)) : System TcpOnce Label := .ofStep (start msgs) next

/-! ## The invariant -/

/-- The client has still to write. -/
def ClientPc.early : ClientPc → Bool
  | .connect | .write => true
  | _ => false

/-- The client has read. -/
def ClientPc.hasRead : ClientPc → Bool
  | .print | .close | .exited => true
  | _ => false

/-- The client has printed. -/
def ClientPc.hasPrinted : ClientPc → Bool
  | .close | .exited => true
  | _ => false

/-- What is known of a client and its connection. -/
structure Client.Ok (c : Client) : Prop where
  connect : c.pc = .connect ↔ c.conn = .unconnected
  sent : c.sent = if c.pc.early then [] else c.msg
  taken_le : c.taken ≤ c.sent.length
  fresh : c.conn = .unconnected ∨ c.conn = .queued → c.taken = 0
  reply : c.reply = [] ∨ 0 < c.taken ∧ c.reply = (c.msg.take c.taken).map toupper
  closed : ∀ r, c.conn = .closed r → c.reply ≠ []
  got : c.pc.hasRead = true → (∃ n, 0 < n ∧ n ≤ c.reply.length ∧ c.got = some (c.reply.take n)) ∨
    c.got = none ∧ c.conn = .closed true
  stdout : c.stdout = if c.pc.hasPrinted then c.got.getD [] else []

/-- The client whose connection the server is at. -/
def ServerPc.current : ServerPc → Option ℕ
  | .accept => none
  | .read i | .write i | .close i => some i

/-- How far the server is with its current client. -/
def Serving (s : TcpOnce) : Prop :=
  match s.server with
  | .accept => True
  | .read i => ∃ c, s.clients[i]? = some c ∧ c.conn = .accepted ∧ c.taken = 0 ∧ c.reply = []
  | .write i => ∃ c, s.clients[i]? = some c ∧ c.conn = .accepted ∧ 0 < c.taken ∧ c.reply = [] ∧
      s.readBuf.take s.readlen = (c.msg.take c.taken).map toupper
  | .close i => ∃ c, s.clients[i]? = some c ∧ c.conn = .accepted ∧ c.reply ≠ []

/-- Where client `i` is on the way through the server. -/
structure Status (s : TcpOnce) (i : ℕ) (c : Client) : Prop where
  connected : i ∈ s.connected ↔ c.conn ≠ .unconnected
  queued : i ∈ s.queue ↔ c.conn = .queued
  accepted : s.server.current = some i ↔ c.conn = .accepted

structure Inv (msgs : List (List UInt8)) (s : TcpOnce) : Prop where
  msgs : s.clients.map Client.msg = msgs
  ok : ∀ c ∈ s.clients, c.Ok
  serving : Serving s
  /-- The connections are served in the order in which they were made. -/
  order : s.connected = s.served ++ s.server.current.toList ++ s.queue
  nodup : s.connected.Nodup
  status : ∀ i c, s.clients[i]? = some c → Status s i c
  present : ∀ i ∈ s.connected, i < s.clients.length

section Inv

variable {msgs : List (List UInt8)} {s s' : TcpOnce}

theorem Client.start_ok (msg : List UInt8) : (Client.start msg).Ok where
  connect := by simp [Client.start]
  sent := rfl
  taken_le := le_rfl
  fresh _ := rfl
  reply := .inl rfl
  closed := nofun
  got := nofun
  stdout := rfl

theorem inv_start : Inv msgs (start msgs) where
  msgs := by
    rw [start, List.map_map]
    exact List.map_id'' (fun _ => rfl) msgs
  ok c hc := by
    obtain ⟨msg, -, rfl⟩ := List.mem_map.mp hc
    exact Client.start_ok msg
  serving := trivial
  order := rfl
  nodup := List.nodup_nil
  status i c hi := by
    obtain ⟨msg, -, rfl⟩ := List.mem_map.mp (List.mem_of_getElem? hi)
    constructor <;> simp [start, Client.start, ServerPc.current]
  present := nofun

/-- One client changes, and the others stay where they are. -/
theorem Inv.update (hinv : Inv msgs s) {i : ℕ} {c c' : Client} (hi : s.clients[i]? = some c)
    (hclients : s'.clients = s.clients.set i c') (hmsg : c'.msg = c.msg) (hok : c'.Ok)
    (hserving : Serving s')
    (horder : s'.connected = s'.served ++ s'.server.current.toList ++ s'.queue)
    (hnodup : s'.connected.Nodup)
    (hconnected : ∀ j ≠ i, j ∈ s'.connected ↔ j ∈ s.connected)
    (hqueue : ∀ j ≠ i, j ∈ s'.queue ↔ j ∈ s.queue)
    (hcurrent : ∀ j ≠ i, s'.server.current = some j ↔ s.server.current = some j)
    (hstatus : Status s' i c') : Inv msgs s' := by
  obtain ⟨hlt, hget⟩ := List.getElem?_eq_some_iff.mp hi
  refine ⟨?_, fun x hx => ?_, hserving, horder, hnodup, fun j x hj => ?_, fun j hj => ?_⟩
  · rw [hclients, List.map_set, hmsg, ← hget, ← List.getElem_map (f := Client.msg),
      List.set_getElem_self, hinv.msgs]
    rwa [List.length_map]
  · rw [hclients] at hx
    rcases List.mem_or_eq_of_mem_set hx with hold | rfl
    · exact hinv.ok x hold
    · exact hok
  · by_cases hji : j = i
    · subst hji
      rw [hclients, List.getElem?_set_self hlt] at hj
      obtain rfl := Option.some.inj hj
      exact hstatus
    · rw [hclients, List.getElem?_set_ne (Ne.symm hji)] at hj
      obtain ⟨h₁, h₂, h₃⟩ := hinv.status j x hj
      exact ⟨(hconnected j hji).trans h₁, (hqueue j hji).trans h₂, (hcurrent j hji).trans h₃⟩
  · rw [hclients, List.length_set]
    by_cases hji : j = i
    · exact hji ▸ hlt
    · exact hinv.present j ((hconnected j hji).mp hj)

/-- The two have the same connection. -/
def Client.SameConn (c c' : Client) : Prop :=
  c'.msg = c.msg ∧ c'.conn = c.conn ∧ c'.taken = c.taken ∧ c'.reply = c.reply

/-- The server only sees its current client, and of that only the connection. -/
theorem Serving.set (h : Serving s) {i : ℕ} {c c' : Client} (hi : s.clients[i]? = some c)
    (hsame : s.server.current = some i → c.SameConn c') :
    Serving { s with clients := s.clients.set i c' } := by
  have hlt := (List.getElem?_eq_some_iff.mp hi).1
  have hget : ∀ {j : ℕ} {x : Client}, s.server.current = some j → s.clients[j]? = some x →
      ∃ x' : Client, (s.clients.set i c')[j]? = some x' ∧ x.SameConn x' := by
    intro j x hcurrent hj
    by_cases hji : j = i
    · subst hji
      obtain rfl := Option.some.inj (hi.symm.trans hj)
      exact ⟨c', List.getElem?_set_self hlt, hsame hcurrent⟩
    · exact ⟨x, by rw [List.getElem?_set_ne (Ne.symm hji), hj], rfl, rfl, rfl, rfl⟩
  unfold Serving at h ⊢
  simp only
  split
  · trivial
  · next j hpc =>
    rw [hpc] at h
    obtain ⟨x, hx, hrest⟩ := h
    obtain ⟨x', hx', h₁, h₂, h₃, h₄⟩ := hget (by rw [hpc]; rfl) hx
    exact ⟨x', hx', by rw [h₂, h₃, h₄]; exact hrest⟩
  · next j hpc =>
    rw [hpc] at h
    obtain ⟨x, hx, hrest⟩ := h
    obtain ⟨x', hx', h₁, h₂, h₃, h₄⟩ := hget (by rw [hpc]; rfl) hx
    exact ⟨x', hx', by rw [h₁, h₂, h₃, h₄]; exact hrest⟩
  · next j hpc =>
    rw [hpc] at h
    obtain ⟨x, hx, hrest⟩ := h
    obtain ⟨x', hx', h₁, h₂, h₃, h₄⟩ := hget (by rw [hpc]; rfl) hx
    exact ⟨x', hx', by rw [h₂, h₄]; exact hrest⟩

/-- A client other than one that connects changes nothing about its connection. -/
theorem Client.Ok.step {c c' : Client} (hok : c.Ok) {n : Option ℕ} (hpc : c.pc ≠ .connect)
    (hstep : stepClient n c = some c') :
    c'.Ok ∧ c.SameConn c' := by
  obtain ⟨hconnect, hsent, htaken, hfresh, hreply, hclosed, hgot, hstdout⟩ := hok
  have hconn : c.conn ≠ .unconnected := fun h => hpc (hconnect.mpr h)
  cases hp : c.pc with
  | connect => exact absurd hp hpc
  | write =>
    simp only [stepClient, hp, Option.some.injEq] at hstep
    subst hstep
    refine ⟨⟨?_, rfl, ?_, hfresh, hreply, hclosed, nofun, ?_⟩, rfl, rfl, rfl, rfl⟩
    · simpa using hconn
    · rw [hsent, hp] at htaken
      exact htaken.trans (Nat.zero_le _)
    · simpa [hp, ClientPc.hasPrinted] using hstdout
  | read =>
    have hsent' : c.sent = c.msg := by rw [hsent, hp]; rfl
    have hstdout' : c.stdout = [] := by simpa [hp, ClientPc.hasPrinted] using hstdout
    cases n with
    | none =>
      by_cases hreset : c.conn = .closed true
      · simp only [stepClient, hp, if_pos hreset, Option.some.injEq] at hstep
        subst hstep
        exact ⟨⟨by simpa using hconn, hsent', htaken, hfresh, hreply, hclosed,
          fun _ => .inr ⟨rfl, hreset⟩, hstdout'⟩, rfl, rfl, rfl, rfl⟩
      · simp [stepClient, hp, hreset] at hstep
    | some n =>
      by_cases hn : 0 < n ∧ n ≤ c.reply.length ∧ n ≤ bufSize
      · simp only [stepClient, hp, if_pos hn, Option.some.injEq] at hstep
        subst hstep
        exact ⟨⟨by simpa using hconn, hsent', htaken, hfresh, hreply, hclosed,
          fun _ => .inl ⟨n, hn.1, hn.2.1, rfl⟩, hstdout'⟩, rfl, rfl, rfl, rfl⟩
      · simp only [stepClient, hp, if_neg hn] at hstep
        cases hstep
  | print =>
    simp only [stepClient, hp, Option.some.injEq] at hstep
    subst hstep
    refine ⟨⟨by simpa using hconn, by rw [hsent, hp]; rfl, htaken, hfresh, hreply, hclosed,
      fun _ => hgot (by rw [hp]; rfl), ?_⟩, rfl, rfl, rfl, rfl⟩
    simp [hstdout, hp, ClientPc.hasPrinted]
  | close =>
    simp only [stepClient, hp, Option.some.injEq] at hstep
    subst hstep
    refine ⟨⟨by simpa using hconn, by rw [hsent, hp]; rfl, htaken, hfresh, hreply, hclosed,
      fun _ => hgot (by rw [hp]; rfl), ?_⟩, rfl, rfl, rfl, rfl⟩
    simp [hstdout, hp, ClientPc.hasPrinted]
  | exited => simp [stepClient, hp] at hstep

theorem Inv.client (hinv : Inv msgs s) {i : ℕ} {n : Option ℕ}
    (hstep : next s (.client i n) = some s') : Inv msgs s' := by
  simp only [next] at hstep
  split at hstep
  · cases hstep
  next c hi =>
  have hok := hinv.ok c (List.mem_of_getElem? hi)
  obtain ⟨hconnected, hqueued, haccepted⟩ := hinv.status i c hi
  by_cases hpc : c.pc = .connect
  · rw [if_pos hpc] at hstep
    split at hstep
    · have hconn := hok.connect.mp hpc
      have hnot : i ∉ s.connected := fun hmem => hconnected.mp hmem hconn
      have hidle : s.server.current ≠ some i := fun hcur => by
        rw [haccepted.mp hcur] at hconn
        cases hconn
      simp only [stepClient, hpc, Option.map_some, Option.some.injEq] at hstep
      subst hstep
      have hok' : ({ c with pc := .write, conn := .queued } : Client).Ok :=
        ⟨by simp, by simpa [hpc, ClientPc.early] using hok.sent, hok.taken_le,
          fun _ => hok.fresh (.inl hconn), hok.reply, nofun, nofun,
          by simpa [hpc, ClientPc.hasPrinted] using hok.stdout⟩
      refine hinv.update hi rfl rfl hok' (hinv.serving.set hi fun hcur => absurd hcur hidle)
        ?_ ?_ ?_ ?_ (fun _ _ => Iff.rfl) ?_
      · simp only [hinv.order, List.append_assoc]
      · exact hinv.nodup.append (List.nodup_singleton i) (by simpa using hnot)
      · exact fun j hj => by simp [hj]
      · exact fun j hj => by simp [hj]
      · constructor <;> simp [hidle]
    · cases hstep
  · rw [if_neg hpc] at hstep
    obtain ⟨c', hc', rfl⟩ := Option.map_eq_some_iff.mp hstep
    obtain ⟨hok', hsame⟩ := hok.step hpc hc'
    refine hinv.update hi rfl hsame.1 hok' (hinv.serving.set hi fun _ => hsame)
      hinv.order hinv.nodup (fun _ _ => Iff.rfl) (fun _ _ => Iff.rfl) (fun _ _ => Iff.rfl) ?_
    exact ⟨by rw [hsame.2.1]; exact hconnected, by rw [hsame.2.1]; exact hqueued,
      by rw [hsame.2.1]; exact haccepted⟩

/-- What the server has read the client has written. -/
theorem Client.Ok.sent_of_taken {c : Client} (hok : c.Ok) {n : ℕ} (hpos : 0 < n)
    (hn : n ≤ c.sent.length) : c.sent = c.msg := by
  have hsent := hok.sent
  split at hsent
  · rw [hsent] at hn
    exact absurd hn (Nat.not_le.mpr hpos)
  · exact hsent

/-- A client has not read before the server has replied. -/
theorem Client.Ok.not_hasRead {c : Client} (hok : c.Ok) (hconn : ∀ r, c.conn ≠ .closed r)
    (hreply : c.reply = []) : c.pc.hasRead = false := by
  by_contra hread
  rcases hok.got (by simpa using hread) with ⟨n, hpos, hn, -⟩ | ⟨-, hclosed⟩
  · rw [hreply] at hn
    exact absurd hn (Nat.not_le.mpr hpos)
  · exact hconn _ hclosed

theorem onClient_eq_some {i : ℕ} {f : Client → Option Client} {clients : List Client} :
    s.onClient i f = some clients ↔
      ∃ c c', s.clients[i]? = some c ∧ f c = some c' ∧ clients = s.clients.set i c' := by
  unfold onClient
  cases s.clients[i]? with
  | none => simp
  | some c =>
    constructor
    · intro h
      obtain ⟨c', hc', rfl⟩ := Option.map_eq_some_iff.mp h
      exact ⟨c, c', rfl, hc', rfl⟩
    · rintro ⟨_, c', hc, hc', rfl⟩
      obtain rfl := Option.some.inj hc
      exact Option.map_eq_some_iff.mpr ⟨c', hc', rfl⟩

theorem Inv.accept (hinv : Inv msgs s) (hpc : s.server = .accept) {i : ℕ} {rest : List ℕ}
    (hqueue : s.queue = i :: rest) {clients : List Client}
    (hclients : s.onClient i (fun c => some { c with conn := .accepted }) = some clients) :
    Inv msgs { s with server := .read i, queue := rest, clients := clients } := by
  obtain ⟨c, c', hi, hc', rfl⟩ := onClient_eq_some.mp hclients
  obtain rfl := Option.some.inj hc'
  have hok := hinv.ok c (List.mem_of_getElem? hi)
  have hstatus := hinv.status i c hi
  have horder := hinv.order
  have hnodup := hinv.nodup
  rw [hpc, hqueue] at horder
  rw [horder, List.nodup_append] at hnodup
  have hnot : i ∉ rest := (List.nodup_cons.mp hnodup.2.1).1
  have hconn : c.conn = .queued := hstatus.queued.mp (by rw [hqueue]; exact List.mem_cons_self)
  have htaken := hok.fresh (.inr hconn)
  have hreply : c.reply = [] := hok.reply.resolve_right fun h => absurd h.1 (by omega)
  have hread := hok.not_hasRead (by simp [hconn]) hreply
  have hmem : i ∈ s.connected := hstatus.connected.mpr (by simp [hconn])
  have hpc' : c.pc ≠ .connect := fun h => by
    rw [hok.connect.mp h] at hconn
    cases hconn
  refine hinv.update hi rfl rfl ?_ ⟨_, List.getElem?_set_self (List.getElem?_eq_some_iff.mp hi).1,
    rfl, htaken, hreply⟩ ?_ hinv.nodup (fun _ _ => Iff.rfl) (fun j hj => ?_) (fun j hj => ?_) ?_
  · exact ⟨by simpa using hpc', hok.sent, hok.taken_le, by simp, hok.reply, nofun,
      fun h => absurd h (by simp [hread]), hok.stdout⟩
  · rw [horder]
    simp [ServerPc.current]
  · simp [hqueue, hj]
  · simp [ServerPc.current, hpc, Ne.symm hj]
  · constructor <;> simp [ServerPc.current, hmem, hnot]

theorem Inv.read (hinv : Inv msgs s) {i n : ℕ} (hpc : s.server = .read i)
    {clients : List Client} (hclients : s.onClient i (Client.give n) = some clients) :
    Inv msgs { s with
      server := .write i, readBuf := s.request i n, readlen := n, clients := clients } := by
  obtain ⟨c, c', hi, hc', rfl⟩ := onClient_eq_some.mp hclients
  have hok := hinv.ok c (List.mem_of_getElem? hi)
  have hserving := hinv.serving
  simp only [Serving, hpc] at hserving
  obtain ⟨_, hi', hconn, htaken, hreply⟩ := hserving
  obtain rfl := Option.some.inj (hi.symm.trans hi')
  unfold Client.give at hc'
  rw [htaken, List.drop_zero] at hc'
  split at hc'
  · next hn =>
    obtain ⟨hpos, hle, -⟩ := hn
    obtain rfl := Option.some.inj hc'
    have hsent := hok.sent_of_taken hpos hle
    obtain ⟨hconnected, hqueued, haccepted⟩ := hinv.status i c hi
    have hread := hok.not_hasRead (by simp [hconn]) hreply
    refine hinv.update hi rfl rfl ?_ ⟨_, List.getElem?_set_self (List.getElem?_eq_some_iff.mp hi).1,
      hconn, ?_, hreply, ?_⟩ ?_ hinv.nodup (fun _ _ => Iff.rfl) (fun _ _ => Iff.rfl)
      (fun j _ => by rw [hpc]; rfl) ⟨hconnected, hqueued, by rw [hpc] at haccepted; exact haccepted⟩
    · exact ⟨hok.connect, hok.sent, by simpa using hle, by simp [hconn], .inl hreply,
        by simp [hconn], fun h => absurd h (by simp [hread]), hok.stdout⟩
    · simpa using hpos
    · have hlen : (c.msg.take n).length = n := by
        rw [List.length_take, ← hsent, Nat.min_eq_left hle]
      have hloop := take_upperLoop (c.msg.take n) ((List.replicate bufSize 0).drop n)
      rw [hlen] at hloop
      simp only [request, hi, htaken, List.drop_zero, Nat.zero_add, hsent]
      exact hloop
    · rw [hinv.order, hpc]
      rfl
  · cases hc'

theorem Inv.write (hinv : Inv msgs s) {i : ℕ} (hpc : s.server = .write i)
    {clients : List Client} (hclients : s.onClient i
      (fun c => some { c with reply := c.reply ++ s.readBuf.take s.readlen }) = some clients) :
    Inv msgs { s with server := .close i, clients := clients } := by
  obtain ⟨c, c', hi, hc', rfl⟩ := onClient_eq_some.mp hclients
  obtain rfl := Option.some.inj hc'
  have hok := hinv.ok c (List.mem_of_getElem? hi)
  have hserving := hinv.serving
  simp only [Serving, hpc] at hserving
  obtain ⟨_, hi', hconn, htaken, hreply, hbuf⟩ := hserving
  obtain rfl := Option.some.inj (hi.symm.trans hi')
  have hsent := hok.sent_of_taken htaken hok.taken_le
  have hne : (c.msg.take c.taken).map toupper ≠ [] := by
    have hle := hok.taken_le
    rw [hsent] at hle
    rw [ne_eq, ← List.length_eq_zero_iff, List.length_map, List.length_take]
    omega
  obtain ⟨hconnected, hqueued, haccepted⟩ := hinv.status i c hi
  have hread := hok.not_hasRead (by simp [hconn]) hreply
  rw [hbuf, hreply, List.nil_append]
  refine hinv.update hi rfl rfl ?_ ⟨_, List.getElem?_set_self (List.getElem?_eq_some_iff.mp hi).1,
    hconn, hne⟩ ?_ hinv.nodup (fun _ _ => Iff.rfl) (fun _ _ => Iff.rfl)
    (fun j _ => by rw [hpc]; rfl) ⟨hconnected, hqueued, by rw [hpc] at haccepted; exact haccepted⟩
  · exact ⟨hok.connect, hok.sent, hok.taken_le, hok.fresh, .inr ⟨htaken, rfl⟩, by simp [hconn],
      fun h => absurd h (by simp [hread]), hok.stdout⟩
  · rw [hinv.order, hpc]
    rfl

theorem Inv.close (hinv : Inv msgs s) {i : ℕ} (hpc : s.server = .close i)
    {clients : List Client} (hclients : s.onClient i
      (fun c => some { c with conn := .closed (decide (c.taken < c.sent.length)) }) =
        some clients) :
    Inv msgs { s with
      server := .accept, clients := clients, served := s.served ++ [i] } := by
  obtain ⟨c, c', hi, hc', rfl⟩ := onClient_eq_some.mp hclients
  obtain rfl := Option.some.inj hc'
  have hok := hinv.ok c (List.mem_of_getElem? hi)
  have hserving := hinv.serving
  simp only [Serving, hpc] at hserving
  obtain ⟨_, hi', hconn, hreply⟩ := hserving
  obtain rfl := Option.some.inj (hi.symm.trans hi')
  obtain ⟨hconnected, hqueued, haccepted⟩ := hinv.status i c hi
  have hnot : i ∉ s.queue := fun hmem => by
    rw [hqueued.mp hmem] at hconn
    cases hconn
  have hmem : i ∈ s.connected := hconnected.mpr (by simp [hconn])
  have hpc' : c.pc ≠ .connect := fun h => by
    rw [hok.connect.mp h] at hconn
    cases hconn
  refine hinv.update hi rfl rfl ?_ trivial ?_ hinv.nodup (fun _ _ => Iff.rfl)
    (fun _ _ => Iff.rfl) (fun j hj => ?_) ?_
  · refine ⟨by simpa using hpc', hok.sent, hok.taken_le, by simp, hok.reply, fun _ _ => hreply,
      fun h => .inl ((hok.got h).resolve_right fun hgot => ?_), hok.stdout⟩
    rw [hgot.2] at hconn
    cases hconn
  · rw [hinv.order, hpc]
    simp [ServerPc.current]
  · simp [ServerPc.current, hpc, Ne.symm hj]
  · constructor <;> simp [ServerPc.current, hmem, hnot]

theorem Inv.step (hinv : Inv msgs s) {l : Label} (hstep : next s l = some s') : Inv msgs s' := by
  cases l with
  | client i n => exact hinv.client hstep
  | server n =>
    simp only [next, stepServer] at hstep
    cases hpc : s.server with
    | accept =>
      simp only [hpc] at hstep
      cases hqueue : s.queue with
      | nil => simp [hqueue] at hstep
      | cons i rest =>
        simp only [hqueue] at hstep
        obtain ⟨clients, hclients, rfl⟩ := Option.map_eq_some_iff.mp hstep
        exact hinv.accept hpc hqueue hclients
    | read i =>
      simp only [hpc] at hstep
      obtain ⟨clients, hclients, rfl⟩ := Option.map_eq_some_iff.mp hstep
      exact hinv.read hpc hclients
    | write i =>
      simp only [hpc] at hstep
      obtain ⟨clients, hclients, rfl⟩ := Option.map_eq_some_iff.mp hstep
      exact hinv.write hpc hclients
    | close i =>
      simp only [hpc] at hstep
      obtain ⟨clients, hclients, rfl⟩ := Option.map_eq_some_iff.mp hstep
      exact hinv.close hpc hclients

theorem inv_of_run {h : List (Event TcpOnce Label)} (hrun : (program msgs).Run h s) :
    Inv msgs s := by
  refine hrun.invariant (I := Inv msgs) ?_ fun s l s' _ hstep hinv => hinv.step hstep
  rintro s rfl
  exact inv_start

end Inv

/-! ## The end of the clients -/

/-- Statements left to a client. -/
def ClientPc.rank : ClientPc → ℕ
  | .connect => 5
  | .write => 4
  | .read => 3
  | .print => 2
  | .close => 1
  | .exited => 0

/-- Statements of the server for a connection that it has not accepted. -/
def Conn.rank : Conn → ℕ
  | .unconnected | .queued => 4
  | .accepted | .closed _ => 0

/-- Statements of the server for its current connection. -/
def ServerPc.rank : ServerPc → ℕ
  | .accept => 0
  | .read _ => 3
  | .write _ => 2
  | .close _ => 1

def Client.rank (c : Client) : ℕ := c.pc.rank + c.conn.rank

def rank (s : TcpOnce) : ℕ := s.server.rank + (s.clients.map Client.rank).sum

section End

variable {msgs : List (List UInt8)} {s s' : TcpOnce}

theorem Client.Ok.rank_lt {c c' : Client} (hok : c.Ok) {n : Option ℕ}
    (hstep : stepClient n c = some c') : c'.rank < c.rank := by
  cases hp : c.pc with
  | connect =>
    have hconn := hok.connect.mp hp
    simp only [stepClient, hp, Option.some.injEq] at hstep
    subst hstep
    simp [Client.rank, hp, hconn, ClientPc.rank, Conn.rank]
  | read =>
    cases n with
    | none =>
      simp only [stepClient, hp] at hstep
      split at hstep
      · cases hstep
        simp [Client.rank, hp, ClientPc.rank]
      · cases hstep
    | some n =>
      simp only [stepClient, hp] at hstep
      split at hstep
      · cases hstep
        simp [Client.rank, hp, ClientPc.rank]
      · cases hstep
  | write | print | close =>
    simp only [stepClient, hp, Option.some.injEq] at hstep
    subst hstep
    simp [Client.rank, hp, ClientPc.rank]
  | exited => simp [stepClient, hp] at hstep

theorem Inv.rank_lt (hinv : Inv msgs s) {l : Label} (hstep : next s l = some s') :
    s'.rank < s.rank := by
  cases l with
  | client i n =>
    simp only [next] at hstep
    split at hstep
    · cases hstep
    next c hi =>
    have hok := hinv.ok c (List.mem_of_getElem? hi)
    have hlower : ∀ c', stepClient n c = some c' →
        ((s.clients.set i c').map Client.rank).sum < (s.clients.map Client.rank).sum := by
      intro c' hc'
      have hlt := hok.rank_lt hc'
      have hsum := sum_map_set_add (f := Client.rank) (b := c') hi
      omega
    split at hstep
    · split at hstep
      · obtain ⟨c', hc', rfl⟩ := Option.map_eq_some_iff.mp hstep
        exact Nat.add_lt_add_left (hlower c' hc') _
      · cases hstep
    · obtain ⟨c', hc', rfl⟩ := Option.map_eq_some_iff.mp hstep
      exact Nat.add_lt_add_left (hlower c' hc') _
  | server n =>
    have hserving := hinv.serving
    simp only [next, stepServer] at hstep
    cases hpc : s.server with
    | accept =>
      simp only [hpc] at hstep
      cases hqueue : s.queue with
      | nil => simp [hqueue] at hstep
      | cons i rest =>
        simp only [hqueue] at hstep
        obtain ⟨clients, hclients, rfl⟩ := Option.map_eq_some_iff.mp hstep
        obtain ⟨c, c', hi, hc', rfl⟩ := onClient_eq_some.mp hclients
        obtain rfl := Option.some.inj hc'
        have hconn := (hinv.status i c hi).queued.mp (by rw [hqueue]; exact List.mem_cons_self)
        have hsum := sum_map_set_add (f := Client.rank) (b := { c with conn := .accepted }) hi
        simp only [Client.rank, hconn, Conn.rank] at hsum
        simp only [rank, hpc, ServerPc.rank]
        omega
    | read i =>
      simp only [hpc] at hstep
      obtain ⟨clients, hclients, rfl⟩ := Option.map_eq_some_iff.mp hstep
      obtain ⟨c, c', hi, hc', rfl⟩ := onClient_eq_some.mp hclients
      unfold Client.give at hc'
      split at hc'
      · obtain rfl := Option.some.inj hc'
        have hsum := sum_map_set_add (f := Client.rank) (b := { c with taken := c.taken + n }) hi
        simp only [Client.rank] at hsum
        simp only [rank, hpc, ServerPc.rank]
        omega
      · cases hc'
    | write i =>
      simp only [hpc] at hstep
      obtain ⟨clients, hclients, rfl⟩ := Option.map_eq_some_iff.mp hstep
      obtain ⟨c, c', hi, hc', rfl⟩ := onClient_eq_some.mp hclients
      obtain rfl := Option.some.inj hc'
      have hsum := sum_map_set_add (f := Client.rank)
        (b := { c with reply := c.reply ++ s.readBuf.take s.readlen }) hi
      simp only [Client.rank] at hsum
      simp only [rank, hpc, ServerPc.rank]
      omega
    | close i =>
      simp only [Serving, hpc] at hserving
      obtain ⟨c₀, hi₀, hconn, -⟩ := hserving
      simp only [hpc] at hstep
      obtain ⟨clients, hclients, rfl⟩ := Option.map_eq_some_iff.mp hstep
      obtain ⟨c, c', hi, hc', rfl⟩ := onClient_eq_some.mp hclients
      obtain rfl := Option.some.inj hc'
      obtain rfl := Option.some.inj (hi.symm.trans hi₀)
      have hsum := sum_map_set_add (f := Client.rank)
        (b := { c with conn := .closed (decide (c.taken < c.sent.length)) }) hi
      simp only [Client.rank, hconn, Conn.rank] at hsum
      simp only [rank, hpc, ServerPc.rank]
      omega

/-- A client that has a statement to execute can go on, unless it is still to connect. -/
theorem client_goes_on {i : ℕ} {c : Client} (hi : s.clients[i]? = some c) {n : Option ℕ}
    (hpc : c.pc ≠ .connect) (hgo : stepClient n c ≠ none) : next s (.client i n) ≠ none := by
  simp only [next, hi, if_neg hpc, ne_eq, Option.map_eq_none_iff]
  exact hgo

theorem onClient_ne_none {i : ℕ} {c : Client} (hi : s.clients[i]? = some c)
    {f : Client → Option Client} (hgo : f c ≠ none) : s.onClient i f ≠ none := by
  simp only [onClient, hi, ne_eq, Option.map_eq_none_iff]
  exact hgo

/-- Where nobody can go on the server waits for a connection, if all requests are to come. -/
theorem Inv.server_idle (hinv : Inv msgs s) (hne : ∀ c ∈ s.clients, c.msg ≠ [])
    (hstuck : ∀ l, next s l = none) : s.server = .accept ∧ s.queue = [] := by
  have hserving := hinv.serving
  have hserver : ∀ n, s.stepServer n = none := fun n => hstuck (.server n)
  cases hpc : s.server with
  | accept =>
    refine ⟨rfl, ?_⟩
    by_contra hqueue
    obtain ⟨i, rest, hqueue⟩ := List.exists_cons_of_ne_nil hqueue
    have hmem : i ∈ s.connected := by
      rw [hinv.order, hqueue]
      simp
    obtain ⟨c, hi⟩ : ∃ c, s.clients[i]? = some c :=
      ⟨_, List.getElem?_eq_getElem (hinv.present i hmem)⟩
    have hnone := hserver 0
    simp only [stepServer, hpc, hqueue, Option.map_eq_none_iff] at hnone
    exact onClient_ne_none hi (by simp) hnone
  | read i =>
    exfalso
    simp only [Serving, hpc] at hserving
    obtain ⟨c, hi, hconn, htaken, hreply⟩ := hserving
    have hmem := List.mem_of_getElem? hi
    have hok := hinv.ok c hmem
    have hread := hok.not_hasRead (by simp [hconn]) hreply
    cases hp : c.pc with
    | connect =>
      rw [hok.connect.mp hp] at hconn
      cases hconn
    | write =>
      exact client_goes_on hi (n := none) (by simp [hp]) (by simp [stepClient, hp]) (hstuck _)
    | read =>
      have hsent : c.sent = c.msg := by rw [hok.sent, hp]; rfl
      have hlen : 0 < c.msg.length := List.length_pos_iff.mpr (hne c hmem)
      have hone : 0 < 1 ∧ 1 ≤ (c.sent.drop c.taken).length ∧ 1 ≤ bufSize := by
        rw [htaken, List.drop_zero, hsent]
        exact ⟨Nat.one_pos, hlen, by decide⟩
      have hnone := hserver 1
      simp only [stepServer, hpc, Option.map_eq_none_iff] at hnone
      exact onClient_ne_none hi (by rw [Client.give, if_pos hone]; nofun) hnone
    | print | close | exited => simp [hp, ClientPc.hasRead] at hread
  | write i =>
    exfalso
    simp only [Serving, hpc] at hserving
    obtain ⟨c, hi, -⟩ := hserving
    have hnone := hserver 0
    simp only [stepServer, hpc, Option.map_eq_none_iff] at hnone
    exact onClient_ne_none hi (by simp) hnone
  | close i =>
    exfalso
    simp only [Serving, hpc] at hserving
    obtain ⟨c, hi, -⟩ := hserving
    have hnone := hserver 0
    simp only [stepServer, hpc, Option.map_eq_none_iff] at hnone
    exact onClient_ne_none hi (by simp) hnone

theorem Inv.all_exited (hinv : Inv msgs s) (hne : ∀ c ∈ s.clients, c.msg ≠ [])
    (hstuck : ∀ l, next s l = none) : ∀ c ∈ s.clients, c.pc = .exited := by
  intro c hmem
  obtain ⟨hserver, hqueue⟩ := hinv.server_idle hne hstuck
  obtain ⟨i, hi⟩ := List.mem_iff_getElem?.mp hmem
  have hok := hinv.ok c hmem
  have hstatus := hinv.status i c hi
  cases hp : c.pc with
  | exited => rfl
  | connect =>
    have hnone := hstuck (.client i none)
    simp [next, hi, hp, hqueue, stepClient] at hnone
  | read =>
    have hclosed : ∃ r, c.conn = .closed r := by
      cases hconn : c.conn with
      | unconnected => rw [hok.connect.mpr hconn] at hp; cases hp
      | queued => exact absurd (hstatus.queued.mpr hconn) (by simp [hqueue])
      | accepted => exact absurd (hstatus.accepted.mpr hconn) (by simp [hserver, ServerPc.current])
      | closed r => exact ⟨r, rfl⟩
    obtain ⟨r, hr⟩ := hclosed
    have hlen : 0 < c.reply.length := List.length_pos_iff.mpr (hok.closed r hr)
    have hone : 0 < 1 ∧ 1 ≤ c.reply.length ∧ 1 ≤ bufSize := ⟨Nat.one_pos, hlen, by decide⟩
    exact absurd (hstuck _) (client_goes_on hi (n := some 1) (by simp [hp])
      (by simp only [stepClient, hp, if_pos hone]; nofun))
  | write | print | close =>
    exact absurd (hstuck _) (client_goes_on hi (n := none) (by simp [hp])
      (by simp [stepClient, hp]))

/-- A client that has nothing to say waits for an answer. -/
theorem Client.Ok.waits {c : Client} (hok : c.Ok) (hmsg : c.msg = []) : c.pc.hasRead = false := by
  have hreply : c.reply = [] := by
    rcases hok.reply with hnil | ⟨-, hreply⟩
    · exact hnil
    · simpa [hmsg] using hreply
  exact hok.not_hasRead (fun r hr => hok.closed r hr hreply) hreply

/-- What a client that has exited has printed. -/
theorem Client.Ok.printed {c : Client} (hok : c.Ok) (hexited : c.pc = .exited) :
    (∃ k, 0 < k ∧ k ≤ c.msg.length ∧ c.stdout = (c.msg.take k).map toupper) ∨
      c.stdout = [] ∧ c.conn = .closed true := by
  have hstdout : c.stdout = c.got.getD [] := by rw [hok.stdout, hexited]; rfl
  rw [hstdout]
  rcases hok.got (by rw [hexited]; rfl) with ⟨n, hpos, hn, hgot⟩ | ⟨hgot, hclosed⟩
  · left
    rcases hok.reply with hnil | ⟨htaken, hreply⟩
    · rw [hnil] at hn
      exact absurd hn (Nat.not_le.mpr hpos)
    · rw [hreply, List.length_map, List.length_take] at hn
      refine ⟨n, hpos, by omega, ?_⟩
      rw [hgot, hreply, Option.getD_some, ← List.map_take, List.take_take]
      congr 2
      omega
  · exact .inr ⟨by rw [hgot]; rfl, hclosed⟩

end End

/-- **One request on a connection.**  In every run of the server with clients that send `msgs`:
the connections are served in the order in which they were made; a client that has exited has
printed the upper-case of some part of the beginning of its argument that is not empty, or
nothing after a reset.  The steps of all are bounded, and lead to the end of all clients if no
argument is empty; and only then, from any state that can be reached. -/
theorem tcp_once (msgs : List (List UInt8)) (h : List (Event TcpOnce Label)) (s : TcpOnce)
    (hrun : (program msgs).Run h s) :
    (s.served <+: s.connected ∧ s.connected.Nodup) ∧
    (∀ c ∈ s.clients, c.pc = .exited →
      (∃ k, 0 < k ∧ k ≤ c.msg.length ∧ c.stdout = (c.msg.take k).map toupper) ∨
        c.stdout = [] ∧ c.conn = .closed true) ∧
    ((program msgs).Completes (fun _ => True) (fun _ s' => ∀ c ∈ s'.clients, c.pc = .exited) s ↔
      ∀ msg ∈ msgs, msg ≠ []) := by
  have hinv := inv_of_run hrun
  refine ⟨⟨?_, hinv.nodup⟩, fun c hc => (hinv.ok c hc).printed, fun hcomplete => ?_,
    fun hne => ?_⟩
  · rw [hinv.order, List.append_assoc]
    exact List.prefix_append ..
  · rintro _ hmem rfl
    obtain ⟨h', s', hcont, hstuck⟩ := hcomplete.possible
    have hinv' := inv_of_run (hcont.run hrun)
    rw [← hinv'.msgs] at hmem
    obtain ⟨c, hc, hmsg⟩ := List.mem_map.mp hmem
    have hwaits := (hinv'.ok c hc).waits hmsg
    rw [hcomplete.maximal h' s' hcont hstuck c hc] at hwaits
    cases hwaits
  · refine System.completes_of_rank rank (I := Inv msgs) (fun s l s' hstep _ hI => hI.step hstep)
      (fun s l s' hstep _ hI => hI.rank_lt hstep) (fun h' s' _ hI hstuck => ?_) hinv
    refine hI.all_exited (fun c hc => hne _ (hI.msgs ▸ List.mem_map_of_mem hc)) fun l => ?_
    exact Option.eq_none_iff_forall_ne_some.mpr fun s'' hs => hstuck l s'' hs trivial

/-- One client reads before the whole reply is there, and the next one gets it all. -/
theorem tcp_once_two_clients : ∃ h s, (program [[97, 98, 99], [100]]).Run h s ∧
    s.clients.map Client.stdout = [[65], [68]] ∧ s.served <+: s.connected := by
  obtain ⟨h, s, hrun, htest⟩ := System.exists_run_of_exec (start [[97, 98, 99], [100]]) next
    [.client 0 none, .client 1 none, .client 0 none, .server 0, .server 2, .server 0,
      .client 0 (some 1), .server 0, .client 0 none, .client 1 none, .server 0, .server 1,
      .server 0, .server 0, .client 1 (some 1), .client 1 none]
    (fun _ s => decide (s.clients.map Client.stdout = [[65], [68]])) (by decide +kernel)
  exact ⟨h, s, hrun, of_decide_eq_true htest, (tcp_once _ h s hrun).1.1⟩

end TcpOnce

end LinuxExercise.Network
