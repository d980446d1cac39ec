import LinuxExercise.Framework.Datagrams
import LinuxExercise.Framework.Termination
import LinuxExercise.Framework.Threads
import LinuxExercise.Network.UdpServer

/-!
# The UDP server and its clients (`011network/02UDP/src/01server.c`, `01client.c`)

Any number of clients send one datagram each and wait for one.  Between them and the server a
datagram may be lost, duplicated or overtaken, and neither side notices: there is no number in a
datagram, no time-out, and nothing is sent twice.

Whatever the network does, a client prints the answer to its own argument or nothing
(`udp_exchange`).  What the network can do to a client is to keep it waiting: it comes to its end
if and only if its datagram, or one of the answers to it, is still on the way.

A client has an address of its own, which here is its number.  The server handles a datagram in
one step, from `recvfrom` to `sendto`; a `sendto` that fails is a datagram that is lost.
-/

namespace LinuxExercise.Network

namespace UdpExchange

open Udp (Outcome)

/-- `BUF_SIZE` of the client. -/
def clientBufSize : ℕ := 8 * 1024

/-- Where a client is. -/
inductive Pc
  /-- `sendto(connfd,argv[1],strlen(argv[1]),0,...)` -/
  | sendto
  /-- `len = recvfrom(connfd,buf,sizeof(buf),0,NULL,0)`, after `bzero` -/
  | recvfrom
  /-- `write(STDOUT_FILENO,buf,len)` -/
  | write
  | exited
  deriving DecidableEq, Repr

structure Client where
  pc : Pc
  /-- `argv[1]` -/
  msg : List UInt8
  /-- The first `len` bytes of `buf`. -/
  buf : List UInt8
  stdout : List UInt8
  deriving DecidableEq, Repr

end UdpExchange

open UdpExchange in
/-- The server, the clients, and the datagrams on their way, each with its client. -/
structure UdpExchange where
  server : Udp ℕ
  clients : List Client
  requests : List (ℕ × List UInt8)
  replies : List (ℕ × List UInt8)

namespace UdpExchange

inductive Label
  /-- The server receives and answers the request at this place. -/
  | server (k : ℕ)
  /-- A client sends its datagram. -/
  | sendto (i : ℕ)
  /-- A client receives the reply at this place. -/
  | recvfrom (k : ℕ)
  /-- A client prints and exits. -/
  | write (i : ℕ)
  | requestFault (f : Fault)
  | replyFault (f : Fault)
  deriving DecidableEq, Repr

def next (s : UdpExchange) : Label → Option UdpExchange
  | .server k =>
    (Datagrams.arrive k s.requests).map fun ((i, payload), requests) =>
      let server := Udp.serve (.datagram i payload) s.server
      { s with
        server := server
        requests := requests
        replies := server.sent.drop s.server.sent.length ++ s.replies }
  | .sendto i =>
    match s.clients[i]? with
    | some c =>
      if c.pc = .sendto then
        some { s with
          clients := s.clients.set i { c with pc := .recvfrom }
          requests := (i, c.msg) :: s.requests }
      else none
    | none => none
  | .recvfrom k =>
    match Datagrams.arrive k s.replies with
    | some ((i, payload), replies) =>
      match s.clients[i]? with
      | some c =>
        if c.pc = .recvfrom then
          some { s with
            clients := s.clients.set i { c with pc := .write, buf := payload.take clientBufSize }
            replies := replies }
        else none
      | none => none
    | none => none
  | .write i =>
    match s.clients[i]? with
    | some c =>
      if c.pc = .write then
        some { s with
          clients := s.clients.set i { c with pc := .exited, stdout := c.stdout ++ c.buf } }
      else none
    | none => none
  | .requestFault f => (Datagrams.fault f s.requests).map fun net => { s with requests := net }
  | .replyFault f => (Datagrams.fault f s.replies).map fun net => { s with replies := net }

/-- The server is in its loop, with whatever its memory holds; the clients have the arguments
`msgs`. -/
def start (readBuf : ℤ → UInt8) (clientaddr : ℕ) (msgs : List (List UInt8)) : UdpExchange where
  server := .start readBuf clientaddr
  clients := msgs.map fun msg => ⟨.sendto, msg, [], []⟩
  requests := []
  replies := []

def program (readBuf : ℤ → UInt8) (clientaddr : ℕ) (msgs : List (List UInt8)) :
    System UdpExchange Label :=
  .ofStep (start readBuf clientaddr msgs) next

/-! ## The steps -/

/-- The datagrams that `serve` sends. -/
theorem serve_sends (i : ℕ) (payload : List UInt8) (server : Udp ℕ) :
    (Udp.serve (.datagram i payload) server).sent.drop server.sent.length =
      [(i, Udp.reply payload)] := by
  rw [Udp.serve_sent, List.drop_left]

/-- What a step does. -/
inductive Stepped (s : UdpExchange) : Label → UdpExchange → Prop
  | server {k i : ℕ} {payload : List UInt8} {requests : List (ℕ × List UInt8)} :
      s.requests.Perm ((i, payload) :: requests) →
      Stepped s (.server k) { s with
        server := Udp.serve (.datagram i payload) s.server
        requests := requests
        replies := (i, Udp.reply payload) :: s.replies }
  | sendto {i : ℕ} {c : Client} : s.clients[i]? = some c → c.pc = .sendto →
      Stepped s (.sendto i) { s with
        clients := s.clients.set i { c with pc := .recvfrom }
        requests := (i, c.msg) :: s.requests }
  | recvfrom {k i : ℕ} {payload : List UInt8} {replies : List (ℕ × List UInt8)} {c : Client} :
      s.replies.Perm ((i, payload) :: replies) → s.clients[i]? = some c → c.pc = .recvfrom →
      Stepped s (.recvfrom k) { s with
        clients := s.clients.set i { c with pc := .write, buf := payload.take clientBufSize }
        replies := replies }
  | write {i : ℕ} {c : Client} : s.clients[i]? = some c → c.pc = .write →
      Stepped s (.write i) { s with
        clients := s.clients.set i { c with pc := .exited, stdout := c.stdout ++ c.buf } }
  | requestFault {f : Fault} {net : List (ℕ × List UInt8)} : net ⊆ s.requests →
      Stepped s (.requestFault f) { s with requests := net }
  | replyFault {f : Fault} {net : List (ℕ × List UInt8)} : net ⊆ s.replies →
      Stepped s (.replyFault f) { s with replies := net }

theorem stepped_of_next {s s' : UdpExchange} {l : Label} (h : next s l = some s') :
    Stepped s l s' := by
  cases l with
  | server k =>
    obtain ⟨⟨⟨i, payload⟩, requests⟩, harrive, rfl⟩ := Option.map_eq_some_iff.mp h
    simp only [serve_sends, List.singleton_append]
    exact .server (Datagrams.arrive_perm harrive)
  | sendto i =>
    simp only [next] at h
    split at h
    · next c hc =>
      split at h
      · next hpc =>
        cases h
        exact .sendto hc hpc
      · cases h
    · cases h
  | recvfrom k =>
    simp only [next] at h
    split at h
    · next i payload replies harrive =>
      split at h
      · next c hc =>
        split at h
        · next hpc =>
          cases h
          exact .recvfrom (Datagrams.arrive_perm harrive) hc hpc
        · cases h
      · cases h
    · cases h
  | write i =>
    simp only [next] at h
    split at h
    · next c hc =>
      split at h
      · next hpc =>
        cases h
        exact .write hc hpc
      · cases h
    · cases h
  | requestFault f =>
    obtain ⟨net, hnet, rfl⟩ := Option.map_eq_some_iff.mp h
    exact .requestFault (Datagrams.fault_subset hnet)
  | replyFault f =>
    obtain ⟨net, hnet, rfl⟩ := Option.map_eq_some_iff.mp h
    exact .replyFault (Datagrams.fault_subset hnet)

/-! ## What is on the way -/

/-- A client has printed what it should, as soon as it has exited. -/
structure Client.Ok (c : Client) : Prop where
  buf : c.pc = .write → c.buf = Udp.reply c.msg
  stdout : c.stdout = if c.pc = .exited then Udp.reply c.msg else []

/-- Every datagram is that of its client, or the reply to it. -/
structure Inv (readBuf : ℤ → UInt8) (clientaddr : ℕ) (msgs : List (List UInt8))
    (s : UdpExchange) : Prop where
  args : s.clients.map Client.msg = msgs
  ok : ∀ c ∈ s.clients, c.Ok
  requests : ∀ x ∈ s.requests, ∃ c, s.clients[x.1]? = some c ∧ c.pc ≠ .sendto ∧ x.2 = c.msg
  replies : ∀ x ∈ s.replies, ∃ c, s.clients[x.1]? = some c ∧ c.pc ≠ .sendto ∧
    x.2 = Udp.reply c.msg
  server : ∃ os, s.server = Udp.loop os (.start readBuf clientaddr) ∧
    ∀ o ∈ os, ∃ i, ∃ msg ∈ msgs, o = .datagram i msg

section Inv

variable {readBuf : ℤ → UInt8} {clientaddr : ℕ} {msgs : List (List UInt8)} {s s' : UdpExchange}

theorem inv_start : Inv readBuf clientaddr msgs (start readBuf clientaddr msgs) where
  args := by simp [start, Function.comp_def]
  ok c hc := by
    obtain ⟨msg, -, rfl⟩ := List.mem_map.mp hc
    exact ⟨nofun, rfl⟩
  requests := nofun
  replies := nofun
  server := ⟨[], rfl, nofun⟩

/-- A reply fits into the buffer of a client. -/
theorem take_reply (msg : List UInt8) : (Udp.reply msg).take clientBufSize = Udp.reply msg := by
  refine List.take_of_length_le ?_
  have hle : (msg.take Udp.bufSize).length ≤ Udp.bufSize := List.length_take_le _ _
  rw [Udp.reply, List.length_append, List.length_map, List.length_singleton]
  exact (Nat.add_le_add_right hle 1).trans (by decide)

/-- A client that goes on with its argument leaves the datagrams as they were. -/
theorem sent_set {i : ℕ} {c : Client} (hc : s.clients[i]? = some c) (c' : Client)
    (hmsg : c'.msg = c.msg) (hpc : c'.pc ≠ .sendto) {f : List UInt8 → List UInt8}
    {x : ℕ × List UInt8} (hx : ∃ d, s.clients[x.1]? = some d ∧ d.pc ≠ .sendto ∧ x.2 = f d.msg) :
    ∃ d, (s.clients.set i c')[x.1]? = some d ∧ d.pc ≠ .sendto ∧ x.2 = f d.msg := by
  obtain ⟨d, hd, hsent, hx⟩ := hx
  by_cases hi : i = x.1
  · subst hi
    obtain rfl := Option.some.inj (hc.symm.trans hd)
    exact ⟨c', List.getElem?_set_self (List.getElem?_eq_some_iff.mp hc).1, hpc, hmsg ▸ hx⟩
  · exact ⟨d, (List.getElem?_set_ne hi).trans hd, hsent, hx⟩

/-- A client takes a step that keeps its argument. -/
theorem Inv.client (hinv : Inv readBuf clientaddr msgs s) {i : ℕ} {c : Client}
    (hc : s.clients[i]? = some c) (c' : Client) (hmsg : c'.msg = c.msg) (hpc : c'.pc ≠ .sendto)
    (hok : c'.Ok) : Inv readBuf clientaddr msgs { s with clients := s.clients.set i c' } where
  args := by
    rw [← hinv.args]
    refine List.ext_getElem? fun j => ?_
    rw [List.getElem?_map, List.getElem?_map]
    by_cases hj : i = j
    · subst hj
      rw [List.getElem?_set_self (List.getElem?_eq_some_iff.mp hc).1, hc, Option.map_some,
        Option.map_some, hmsg]
    · rw [List.getElem?_set_ne hj]
  ok d hd := by
    rcases List.mem_or_eq_of_mem_set hd with hold | rfl
    · exact hinv.ok d hold
    · exact hok
  requests x hx := sent_set (f := id) hc c' hmsg hpc (hinv.requests x hx)
  replies x hx := sent_set hc c' hmsg hpc (hinv.replies x hx)
  server := hinv.server

/-- The datagrams on the way change. -/
theorem Inv.network (hinv : Inv readBuf clientaddr msgs s)
    {requests replies : List (ℕ × List UInt8)}
    (hrequests : ∀ x ∈ requests, ∃ c, s.clients[x.1]? = some c ∧ c.pc ≠ .sendto ∧ x.2 = c.msg)
    (hreplies : ∀ x ∈ replies, ∃ c, s.clients[x.1]? = some c ∧ c.pc ≠ .sendto ∧
      x.2 = Udp.reply c.msg) :
    Inv readBuf clientaddr msgs { s with requests := requests, replies := replies } :=
  ⟨hinv.args, hinv.ok, hrequests, hreplies, hinv.server⟩

theorem Inv.step (hinv : Inv readBuf clientaddr msgs s) {l : Label} (hstep : Stepped s l s') :
    Inv readBuf clientaddr msgs s' := by
  cases hstep with
  | @server k i payload requests hperm =>
    obtain ⟨c, hc, hpc, hpayload⟩ :=
      hinv.requests (i, payload) (hperm.mem_iff.mpr List.mem_cons_self)
    simp only at hc hpayload
    subst hpayload
    have hreplies : ∀ x ∈ (i, Udp.reply c.msg) :: s.replies,
        ∃ d, s.clients[x.1]? = some d ∧ d.pc ≠ .sendto ∧ x.2 = Udp.reply d.msg :=
      List.forall_mem_cons.mpr ⟨⟨c, hc, hpc, rfl⟩, hinv.replies⟩
    have hnet := hinv.network
      (fun x hx => hinv.requests x (hperm.mem_iff.mpr (List.mem_cons_of_mem _ hx))) hreplies
    obtain ⟨os, hserver, hos⟩ := hinv.server
    refine { hnet with server := ⟨os ++ [.datagram i c.msg], ?_, ?_⟩ }
    · rw [Udp.loop_snoc, ← hserver]
    · refine List.forall_mem_append.mpr ⟨hos, List.forall_mem_singleton.mpr ⟨i, c.msg, ?_, rfl⟩⟩
      rw [← hinv.args]
      exact List.mem_map_of_mem (List.mem_of_getElem? hc)
  | @sendto i c hc hpc =>
    have hstdout := (hinv.ok c (List.mem_of_getElem? hc)).stdout
    rw [if_neg (by rw [hpc]; exact nofun)] at hstdout
    have hsent := hinv.client hc { c with pc := .recvfrom } rfl nofun ⟨nofun, hstdout⟩
    have hrequest : ∃ d, (s.clients.set i { c with pc := .recvfrom })[i]? = some d ∧
        d.pc ≠ .sendto ∧ c.msg = d.msg :=
      ⟨_, List.getElem?_set_self (List.getElem?_eq_some_iff.mp hc).1, nofun, rfl⟩
    exact hsent.network (List.forall_mem_cons.mpr ⟨hrequest, hsent.requests⟩) hsent.replies
  | @recvfrom k i payload replies c hperm hc hpc =>
    obtain ⟨d, hd, -, hpayload⟩ :=
      hinv.replies (i, payload) (hperm.mem_iff.mpr List.mem_cons_self)
    obtain rfl := Option.some.inj (hc.symm.trans hd)
    simp only at hpayload
    have hstdout := (hinv.ok c (List.mem_of_getElem? hc)).stdout
    rw [if_neg (by rw [hpc]; exact nofun)] at hstdout
    have hgot := hinv.client hc { c with pc := .write, buf := payload.take clientBufSize } rfl
      nofun ⟨fun _ => by rw [hpayload]; exact take_reply c.msg, hstdout⟩
    exact hgot.network hgot.requests fun x hx =>
      hgot.replies x (hperm.mem_iff.mpr (List.mem_cons_of_mem _ hx))
  | @write i c hc hpc =>
    obtain ⟨hbuf, hstdout⟩ := hinv.ok c (List.mem_of_getElem? hc)
    rw [if_neg (by rw [hpc]; exact nofun)] at hstdout
    refine hinv.client hc _ rfl nofun ⟨nofun, ?_⟩
    rw [hstdout, hbuf hpc]
    rfl
  | requestFault hsub => exact hinv.network (fun x hx => hinv.requests x (hsub hx)) hinv.replies
  | replyFault hsub => exact hinv.network hinv.requests fun x hx => hinv.replies x (hsub hx)

theorem inv_of_run {h : List (Event UdpExchange Label)}
    (hrun : (program readBuf clientaddr msgs).Run h s) : Inv readBuf clientaddr msgs s := by
  refine hrun.invariant (I := Inv readBuf clientaddr msgs) ?_
    fun s l s' _ hstep hinv => hinv.step (stepped_of_next hstep)
  rintro s rfl
  exact inv_start

end Inv

/-! ## Who can come to an end -/

/-- A datagram of client `i`, or a reply to it, is on the way. -/
def OnTheWay (i : ℕ) (s : UdpExchange) : Prop :=
  i ∈ s.requests.map Prod.fst ∨ i ∈ s.replies.map Prod.fst

/-- The client waits for a reply that will not come. -/
def Stranded (i : ℕ) (s : UdpExchange) : Prop :=
  (∃ c, s.clients[i]? = some c ∧ c.pc = .recvfrom) ∧ ¬ OnTheWay i s

section Steps

variable {s s' : UdpExchange} {l : Label} {i : ℕ}

/-- Nobody sends for a client that waits. -/
theorem Stranded.step (h : Stranded i s) (hstep : Stepped s l s') : Stranded i s' := by
  obtain ⟨⟨c, hc, hpc⟩, hnone⟩ := h
  rw [OnTheWay, not_or] at hnone
  obtain ⟨hrequest, hreply⟩ := hnone
  have hother : ∀ {j : ℕ} {d d' : Client}, s.clients[j]? = some d → d.pc ≠ .recvfrom →
      (s.clients.set j d')[i]? = some c := by
    intro j d d' hd hdpc
    have hj : j ≠ i := by
      rintro rfl
      obtain rfl := Option.some.inj (hc.symm.trans hd)
      exact hdpc hpc
    rw [List.getElem?_set_ne hj, hc]
  cases hstep with
  | @server k j payload requests hperm =>
    have hmem := (hperm.map Prod.fst).mem_iff.not.mp hrequest
    rw [List.map_cons, List.mem_cons, not_or] at hmem
    refine ⟨⟨c, hc, hpc⟩, not_or.mpr ⟨hmem.2, ?_⟩⟩
    rw [List.map_cons, List.mem_cons, not_or]
    exact ⟨hmem.1, hreply⟩
  | @sendto j d hd hdpc =>
    have hj : i ≠ j := by
      rintro rfl
      obtain rfl := Option.some.inj (hc.symm.trans hd)
      rw [hpc] at hdpc
      cases hdpc
    refine ⟨⟨c, hother hd (by rw [hdpc]; exact nofun), hpc⟩, not_or.mpr ⟨?_, hreply⟩⟩
    rw [List.map_cons, List.mem_cons, not_or]
    exact ⟨hj, hrequest⟩
  | @recvfrom k j payload replies d hperm hd hdpc =>
    have hmem := (hperm.map Prod.fst).mem_iff.not.mp hreply
    rw [List.map_cons, List.mem_cons, not_or] at hmem
    refine ⟨⟨c, ?_, hpc⟩, not_or.mpr ⟨hrequest, hmem.2⟩⟩
    exact (List.getElem?_set_ne (Ne.symm hmem.1)).trans hc
  | write hd hdpc =>
    exact ⟨⟨c, hother hd (by rw [hdpc]; exact nofun), hpc⟩, not_or.mpr ⟨hrequest, hreply⟩⟩
  | requestFault hsub =>
    exact ⟨⟨c, hc, hpc⟩, not_or.mpr ⟨fun hmem => hrequest (List.map_subset _ hsub hmem), hreply⟩⟩
  | replyFault hsub =>
    exact ⟨⟨c, hc, hpc⟩, not_or.mpr ⟨hrequest, fun hmem => hreply (List.map_subset _ hsub hmem)⟩⟩

/-- A stranded client stays so. -/
theorem Stranded.leads {readBuf : ℤ → UInt8} {clientaddr : ℕ} {msgs : List (List UInt8)}
    (h : Stranded i s) (hleads : (program readBuf clientaddr msgs).Leads s s') :
    Stranded i s' := by
  induction hleads with
  | refl => exact h
  | tail _ hstep ih =>
    obtain ⟨l, hstep⟩ := hstep
    exact ih.step (stepped_of_next hstep)

/-- The steps of the programs. -/
def isReliable (e : Event UdpExchange Label) : Bool :=
  match e.label with
  | .requestFault _ | .replyFault _ => false
  | _ => true

/-- The statements a client has left, and those its datagram is worth. -/
def Client.rank (c : Client) : ℕ :=
  match c.pc with
  | .sendto => 5
  | .recvfrom => 2
  | .write => 1
  | .exited => 0

def rank (s : UdpExchange) : ℕ :=
  (s.clients.map Client.rank).sum + 2 * s.requests.length + s.replies.length

theorem rank_lt (hstep : Stepped s l s') (hreliable : isReliable ⟨s, l, s'⟩ = true) :
    s'.rank < s.rank := by
  have hset : ∀ {j : ℕ} {d : Client} (d' : Client), s.clients[j]? = some d →
      ((s.clients.set j d').map Client.rank).sum + d.rank =
        (s.clients.map Client.rank).sum + d'.rank := fun _ hd => sum_map_set_add hd
  cases hstep with
  | server hperm =>
    have hlen := hperm.length_eq
    rw [List.length_cons] at hlen
    simp only [rank, List.length_cons]
    omega
  | @sendto j d hd hdpc =>
    have hsum := hset { d with pc := .recvfrom } hd
    have hold : d.rank = 5 := by rw [Client.rank, hdpc]
    have hnew : Client.rank { d with pc := .recvfrom } = 2 := rfl
    simp only [rank, List.length_cons]
    omega
  | @recvfrom k j payload replies d hperm hd hdpc =>
    have hlen := hperm.length_eq
    rw [List.length_cons] at hlen
    have hsum := hset { d with pc := .write, buf := payload.take clientBufSize } hd
    have hold : d.rank = 2 := by rw [Client.rank, hdpc]
    have hnew : Client.rank { d with pc := .write, buf := payload.take clientBufSize } = 1 := rfl
    simp only [rank]
    omega
  | @write j d hd hdpc =>
    have hsum := hset { d with pc := .exited, stdout := d.stdout ++ d.buf } hd
    have hold : d.rank = 1 := by rw [Client.rank, hdpc]
    have hnew : Client.rank { d with pc := .exited, stdout := d.stdout ++ d.buf } = 0 := rfl
    simp only [rank]
    omega
  | requestFault | replyFault => cases hreliable

end Steps

end UdpExchange

end LinuxExercise.Network
