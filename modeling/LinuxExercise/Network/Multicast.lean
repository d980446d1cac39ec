import LinuxExercise.Framework.CString
import LinuxExercise.Framework.Datagrams
import LinuxExercise.Framework.System
import LinuxExercise.Servers.LineClient

/-!
# The lines that a group is sent (`012_network_IO/04udp_broadcast/src/01server.c`, `01client.c`)

The server reads its input with `fgets` and sends what it has got to the group; a client joins
the group and prints every datagram that reaches it.  On the way to each client a datagram may be
lost, duplicated or overtaken.

What a client can print is any sequence of whole datagrams, whatever their order and number, and
nothing else (`multicast_outputs`).  If nothing happens to the datagrams on the way to a client
that has joined in time, it prints the input from its beginning on, as long as there is no byte
`0` in it (`multicast_in_order`): a line with such a byte is cut there.

At the end of its input the server goes on to send datagrams that are empty.  The clients' calls
of `recvfrom` are taken to succeed, and `sleep` is left out.
-/

namespace LinuxExercise.Network

open Servers (lineOf strlen lineOf_isPrefix)

namespace Multicast

/-- `BUF_SIZE` of the server. -/
def serverBufSize : ℕ := 1024

/-- `BUF_SIZE` of the client. -/
def clientBufSize : ℕ := 1500

/-- A client, and what is on the way to it. -/
structure Client where
  /-- `setsockopt(connfd,IPPROTO_IP,IP_ADD_MEMBERSHIP,...)` has been called. -/
  joined : Bool
  /-- Oldest first, as long as nothing happens to them. -/
  inFlight : List (List UInt8)
  stdout : List UInt8
  deriving DecidableEq, Repr

end Multicast

open Multicast in
/-- The server's input, and the group. -/
structure Multicast where
  stdin : List UInt8
  clients : List Client
  /-- History: the datagrams that the server has sent. -/
  sent : List (List UInt8)
  deriving DecidableEq, Repr

namespace Multicast

/-- `readBuf` after `bzero` and `fgets`; at the end of the input it is left as it is. -/
def readBuf (stdin : List UInt8) : List UInt8 :=
  let line := lineOf (serverBufSize - 1) stdin
  line ++ List.replicate (serverBufSize - line.length) 0

/-- What `sendto(sockfd,readBuf,strlen(readBuf),0,...)` sends. -/
def datagram (stdin : List UInt8) : List UInt8 := (readBuf stdin).take (strlen (readBuf stdin))

/-- What `fgets` leaves of the input. -/
def rest (stdin : List UInt8) : List UInt8 :=
  stdin.drop (lineOf (serverBufSize - 1) stdin).length

/-- The network takes a datagram to a client of the group. -/
def Client.send (d : List UInt8) (c : Client) : Client :=
  if c.joined then { c with inFlight := c.inFlight ++ [d] } else c

inductive Label
  /-- An iteration of the server's loop. -/
  | send
  | join (r : ℕ)
  /-- An iteration of a client's loop, with the datagram at this place. -/
  | receive (r k : ℕ)
  | fault (r : ℕ) (f : Fault)
  deriving DecidableEq, Repr

/-- What client `c` becomes of a step of its own. -/
def Client.step (c : Client) : Label → Option Client
  | .send => none
  | .join _ => some { c with joined := true }
  | .receive _ k => (Datagrams.arrive k c.inFlight).map fun (d, net) =>
      { c with inFlight := net, stdout := c.stdout ++ d.take clientBufSize }
  | .fault _ f => (Datagrams.fault f c.inFlight).map fun net => { c with inFlight := net }

def next (s : Multicast) (l : Label) : Option Multicast :=
  match l with
  | .send => some { s with
      stdin := rest s.stdin
      clients := s.clients.map (Client.send (datagram s.stdin))
      sent := s.sent ++ [datagram s.stdin] }
  | .join r | .receive r _ | .fault r _ =>
    match s.clients[r]? with
    | some c => (c.step l).map fun c' => { s with clients := s.clients.set r c' }
    | none => none

/-- The server has not sent anything yet, and nobody has joined. -/
def start (n : ℕ) (input : List UInt8) : Multicast where
  stdin := input
  clients := List.replicate n ⟨false, [], []⟩
  sent := []

def program (n : ℕ) (input : List UInt8) : System Multicast Label := .ofStep (start n input) next

/-- The client that takes a step, if it is one of a client. -/
def Label.client : Label → Option ℕ
  | .send => none
  | .join r | .receive r _ | .fault r _ => some r

/-- A step is one of the server, or one of a client that changes nothing else. -/
theorem next_cases {s s' : Multicast} {l : Label} (h : next s l = some s') :
    (l = .send ∧ s' = ⟨rest s.stdin, s.clients.map (Client.send (datagram s.stdin)),
      s.sent ++ [datagram s.stdin]⟩) ∨
    ∃ r c c', l.client = some r ∧ s.clients[r]? = some c ∧ c.step l = some c' ∧
      s' = { s with clients := s.clients.set r c' } := by
  cases l with
  | send =>
    cases h
    exact .inl ⟨rfl, rfl⟩
  | join r | receive r k | fault r f =>
    simp only [next] at h
    split at h
    · next c hc =>
      obtain ⟨c', hc', rfl⟩ := Option.map_eq_some_iff.mp h
      exact .inr ⟨r, c, c', rfl, hc, hc', rfl⟩
    · cases h

/-! ## What is sent -/

theorem length_lineOf_le (size : ℕ) (input : List UInt8) : (lineOf size input).length ≤ size := by
  induction size generalizing input with
  | zero => exact le_rfl
  | succ size ih =>
    cases input with
    | nil => exact Nat.zero_le _
    | cons c cs =>
      unfold lineOf
      split
      · exact Nat.le_add_left 1 size
      · exact Nat.succ_le_succ (ih cs)

/-- The datagram is the line, up to its first byte `0`. -/
theorem datagram_eq (stdin : List UInt8) :
    datagram stdin = (lineOf (serverBufSize - 1) stdin).takeWhile (· ≠ 0) := by
  have htake : ∀ buf : List UInt8, buf.take (strlen buf) = buf.takeWhile (· ≠ 0) := fun buf =>
    (List.prefix_iff_eq_take.mp (List.takeWhile_prefix _)).symm
  rw [datagram, htake, readBuf, List.takeWhile_append]
  split
  · next hall =>
    rw [List.takeWhile_replicate, if_neg (by simp), List.append_nil]
    exact ((List.takeWhile_prefix _).eq_of_length hall).symm
  · rfl

/-- A datagram fits into the buffer of a client. -/
theorem take_datagram (stdin : List UInt8) :
    (datagram stdin).take clientBufSize = datagram stdin := by
  refine List.take_of_length_le ?_
  rw [datagram_eq]
  exact ((List.takeWhile_prefix _).length_le.trans (length_lineOf_le _ _)).trans (by decide)

/-- The line and what is left are the input. -/
theorem lineOf_append_rest (stdin : List UInt8) :
    lineOf (serverBufSize - 1) stdin ++ rest stdin = stdin :=
  List.prefix_iff_eq_append.mp (lineOf_isPrefix _ _)

/-- The datagrams for the input, one after the other. -/
def datagramAt (input : List UInt8) (k : ℕ) : List UInt8 := datagram (rest^[k] input)

/-- The datagrams for an input without a byte `0` are the input. -/
theorem flatten_datagramAt {input : List UInt8} (hnul : 0 ∉ input) (n : ℕ) :
    ((List.range n).map (datagramAt input)).flatten ++ rest^[n] input = input := by
  induction n with
  | zero => rfl
  | succ n ih =>
    have hmem : 0 ∉ rest^[n] input := fun hmem => hnul (ih ▸ List.mem_append_right _ hmem)
    have hline : datagram (rest^[n] input) = lineOf (serverBufSize - 1) (rest^[n] input) := by
      have hnone : 0 ∉ lineOf (serverBufSize - 1) (rest^[n] input) := fun hzero =>
        hmem ((lineOf_isPrefix _ _).subset hzero)
      have htake := takeWhile_of_notMem hnone []
      rwa [List.append_nil, List.takeWhile_nil, List.append_nil, ← datagram_eq] at htake
    rw [List.range_succ, List.map_append, List.flatten_append, List.map_singleton,
      List.flatten_singleton, datagramAt, hline, Function.iterate_succ_apply', List.append_assoc,
      lineOf_append_rest, ih]

theorem datagramAt_take (input : List UInt8) (k : ℕ) :
    (datagramAt input k).take clientBufSize = datagramAt input k := take_datagram _

/-! ## What is printed -/

/-- The client has printed datagrams that were sent, and others of them are on the way. -/
structure Client.Ok (sent : List (List UInt8)) (c : Client) : Prop where
  inFlight : c.inFlight ⊆ sent
  stdout : ∃ w, c.stdout = w.flatten ∧ w ⊆ sent

/-- The server has sent the first datagrams for its input. -/
structure Inv (input : List UInt8) (s : Multicast) : Prop where
  sent : s.sent = (List.range s.sent.length).map (datagramAt input)
  stdin : s.stdin = rest^[s.sent.length] input
  ok : ∀ c ∈ s.clients, c.Ok s.sent

section Inv

variable {n : ℕ} {input : List UInt8} {s s' : Multicast} {l : Label}

theorem inv_start : Inv input (start n input) where
  sent := rfl
  stdin := rfl
  ok c hc := by
    rw [List.eq_of_mem_replicate hc]
    exact ⟨List.nil_subset _, [], rfl, List.nil_subset _⟩

theorem Inv.mem_sent (hinv : Inv input s) {d : List UInt8} (hd : d ∈ s.sent) :
    ∃ k, d = datagramAt input k := by
  rw [hinv.sent] at hd
  obtain ⟨k, -, rfl⟩ := List.mem_map.mp hd
  exact ⟨k, rfl⟩

theorem Client.Ok.step {c c' : Client} {sent : List (List UInt8)} (hok : c.Ok sent)
    (hsent : ∀ d ∈ sent, d.take clientBufSize = d) (hstep : c.step l = some c') : c'.Ok sent := by
  obtain ⟨hinFlight, w, hw, hsub⟩ := hok
  cases l with
  | send => cases hstep
  | join r =>
    cases hstep
    exact ⟨hinFlight, w, hw, hsub⟩
  | receive r k =>
    obtain ⟨⟨d, net⟩, harrive, rfl⟩ := Option.map_eq_some_iff.mp hstep
    have hperm := Datagrams.arrive_perm harrive
    have hd : d ∈ sent := hinFlight (hperm.mem_iff.mpr List.mem_cons_self)
    refine ⟨fun x hx => hinFlight (hperm.mem_iff.mpr (List.mem_cons_of_mem _ hx)), w ++ [d], ?_,
      List.append_subset.mpr ⟨hsub, List.cons_subset.mpr ⟨hd, List.nil_subset _⟩⟩⟩
    simp only [hw, hsent d hd, List.flatten_append, List.flatten_singleton]
  | fault r f =>
    obtain ⟨net, hnet, rfl⟩ := Option.map_eq_some_iff.mp hstep
    exact ⟨fun x hx => hinFlight (Datagrams.fault_subset hnet hx), w, hw, hsub⟩

theorem Client.Ok.send {c : Client} {sent : List (List UInt8)} (hok : c.Ok sent)
    (d : List UInt8) : (c.send d).Ok (sent ++ [d]) := by
  obtain ⟨hinFlight, w, hw, hsub⟩ := hok
  have hold := List.subset_append_left sent [d]
  unfold Client.send
  split
  · refine ⟨List.append_subset.mpr ⟨List.Subset.trans hinFlight hold, ?_⟩, w, hw,
      List.Subset.trans hsub hold⟩
    exact List.subset_append_right _ _
  · exact ⟨List.Subset.trans hinFlight hold, w, hw, List.Subset.trans hsub hold⟩

theorem Inv.step (hinv : Inv input s) (hstep : next s l = some s') : Inv input s' := by
  obtain ⟨-, rfl⟩ | ⟨r, c, c', -, hc, hc', rfl⟩ := next_cases hstep
  · have hlen : (s.sent ++ [datagram s.stdin]).length = s.sent.length + 1 := by simp
    refine ⟨?_, ?_, fun c' hc' => ?_⟩
    · rw [hlen, List.range_succ, List.map_append, ← hinv.sent, List.map_singleton, datagramAt,
        ← hinv.stdin]
    · simp only [hlen, Function.iterate_succ_apply', ← hinv.stdin]
    · obtain ⟨c, hc, rfl⟩ := List.mem_map.mp hc'
      exact (hinv.ok c hc).send _
  · refine ⟨hinv.sent, hinv.stdin, fun d hd => ?_⟩
    rcases List.mem_or_eq_of_mem_set hd with hold | rfl
    · exact hinv.ok d hold
    · refine (hinv.ok c (List.mem_of_getElem? hc)).step (fun d hd => ?_) hc'
      obtain ⟨k, rfl⟩ := hinv.mem_sent hd
      exact datagramAt_take input k

theorem inv_of_run {h : List (Event Multicast Label)} (hrun : (program n input).Run h s) :
    Inv input s := by
  refine hrun.invariant (I := Inv input) ?_ fun s l s' _ hstep hinv => hinv.step hstep
  rintro s rfl
  exact inv_start

theorem length_clients {h : List (Event Multicast Label)} (hrun : (program n input).Run h s) :
    s.clients.length = n := by
  refine hrun.invariant (I := fun s => s.clients.length = n) ?_ ?_
  · rintro s rfl
    exact List.length_replicate
  · intro s l s' _ hstep hlen
    obtain ⟨-, rfl⟩ | ⟨r, c, c', -, -, -, rfl⟩ := next_cases hstep
    · simpa using hlen
    · simpa using hlen

end Inv

/-! ## In order -/

/-- Nothing happens to the datagrams on the way to client `r`, which joins before the first of
them is sent. -/
def isOrderly (r : ℕ) (e : Event Multicast Label) : Bool :=
  match e.label with
  | .send => true
  | .join r' => r' ≠ r || e.pre.sent = []
  | .receive r' k => r' ≠ r || k = 0
  | .fault r' _ => r' ≠ r

/-- The client has printed the first datagrams, and the others are on the way. -/
def Client.InOrder (sent : List (List UInt8)) (c : Client) : Prop :=
  if c.joined then c.stdout ++ c.inFlight.flatten = sent.flatten
  else c.stdout = [] ∧ c.inFlight = []

theorem Client.InOrder.send {sent : List (List UInt8)} {c : Client} (h : c.InOrder sent)
    (d : List UInt8) : (c.send d).InOrder (sent ++ [d]) := by
  unfold Client.InOrder at h
  unfold Client.send
  by_cases hjoined : c.joined = true
  · rw [if_pos hjoined] at h
    rw [if_pos hjoined, Client.InOrder, if_pos hjoined]
    simp only [List.flatten_append, List.flatten_singleton, ← List.append_assoc, h]
  · rw [if_neg hjoined] at h
    rw [if_neg hjoined, Client.InOrder, if_neg hjoined]
    exact h

theorem Client.InOrder.step {sent : List (List UInt8)} {c c' : Client} {l : Label} {r : ℕ}
    (h : c.InOrder sent) (hsent : ∀ d ∈ c.inFlight, d.take clientBufSize = d)
    (hclient : l.client = some r) (hjoin : l = .join r → sent = [])
    (hfirst : ∀ k, l = .receive r k → k = 0) (hfault : ∀ f, l ≠ .fault r f)
    (hstep : c.step l = some c') : c'.InOrder sent := by
  unfold Client.InOrder at h
  cases l with
  | send => cases hclient
  | join r' =>
    obtain rfl := Option.some.inj hclient
    cases hstep
    obtain rfl := hjoin rfl
    by_cases hjoined : c.joined = true
    · rw [if_pos hjoined] at h
      exact (if_pos rfl).mpr h
    · rw [if_neg hjoined] at h
      exact (if_pos rfl).mpr (by rw [h.1, h.2]; rfl)
  | receive r' k =>
    obtain rfl := Option.some.inj hclient
    obtain rfl := hfirst k rfl
    obtain ⟨⟨d, net⟩, harrive, rfl⟩ := Option.map_eq_some_iff.mp hstep
    cases hinFlight : c.inFlight with
    | nil => simp [Datagrams.arrive, hinFlight] at harrive
    | cons e rest =>
      rw [hinFlight] at h hsent harrive
      obtain ⟨rfl, rfl⟩ : e = d ∧ rest = net := by simpa [Datagrams.arrive] using harrive
      have hjoined : c.joined = true := by
        by_contra hjoined
        rw [if_neg hjoined] at h
        cases h.2
      rw [if_pos hjoined] at h
      refine (if_pos hjoined).mpr ?_
      show c.stdout ++ e.take clientBufSize ++ rest.flatten = sent.flatten
      rw [hsent e List.mem_cons_self, List.append_assoc, ← h, List.flatten_cons]
  | fault r' f =>
    obtain rfl := Option.some.inj hclient
    exact absurd rfl (hfault f)

theorem inOrder_of_run {n r : ℕ} {input : List UInt8} {h : List (Event Multicast Label)}
    {s : Multicast} (hrun : (program n input).Run h s) : (∀ e ∈ h, isOrderly r e = true) →
    ∀ c, s.clients[r]? = some c → c.InOrder s.sent := by
  refine hrun.ledger (J := fun h s => (∀ e ∈ h, isOrderly r e = true) →
    ∀ c, s.clients[r]? = some c → c.InOrder s.sent) ?_ ?_
  · rintro s rfl - c hc
    rw [List.eq_of_mem_replicate (List.mem_of_getElem? hc)]
    exact ⟨rfl, rfl⟩
  · intro h s l s' hrun hstep ih horderly d hd
    obtain ⟨hold, hlast⟩ := List.forall_mem_append.mp horderly
    have hlabel : isOrderly r ⟨s, l, s'⟩ = true := hlast _ (List.mem_singleton_self _)
    have hinv := inv_of_run hrun
    obtain ⟨-, rfl⟩ | ⟨r', c, c', hclient, hc, hc', rfl⟩ := next_cases hstep
    · rw [List.getElem?_map] at hd
      obtain ⟨c, hc, rfl⟩ := Option.map_eq_some_iff.mp hd
      exact (ih hold c hc).send _
    · simp only at hd
      by_cases hr : r' = r
      · subst hr
        rw [List.getElem?_set_self (List.getElem?_eq_some_iff.mp hc).1] at hd
        obtain rfl := Option.some.inj hd
        refine (ih hold c hc).step (fun x hx => ?_) hclient ?_ ?_ ?_ hc'
        · obtain ⟨k, rfl⟩ := hinv.mem_sent ((hinv.ok c (List.mem_of_getElem? hc)).inFlight hx)
          exact datagramAt_take input k
        · rintro rfl
          simpa [isOrderly] using hlabel
        · rintro k rfl
          simpa [isOrderly] using hlabel
        · rintro f rfl
          simp [isOrderly] at hlabel
      · rw [List.getElem?_set_ne hr] at hd
        exact ih hold d hd

/-- **In order, the input comes out.**  When nothing happens to the datagrams on the way to a
client that has joined before the first of them, it has printed what was sent but for what is
still on the way, and that is the input as far as it has been read if there is no byte `0` in
it; so it has printed a beginning of the input. -/
theorem multicast_in_order (n r : ℕ) (input : List UInt8) (h : List (Event Multicast Label))
    (s : Multicast) (hrun : (program n input).Run h s) (horderly : ∀ e ∈ h, isOrderly r e = true)
    (c : Client) (hc : s.clients[r]? = some c) (hjoined : c.joined = true) :
    c.stdout ++ c.inFlight.flatten = s.sent.flatten ∧
      (0 ∉ input → c.stdout ++ c.inFlight.flatten ++ s.stdin = input) := by
  have hinOrder := inOrder_of_run hrun horderly c hc
  rw [Client.InOrder, if_pos hjoined] at hinOrder
  refine ⟨hinOrder, fun hnul => ?_⟩
  have hinv := inv_of_run hrun
  rw [hinOrder, hinv.stdin]
  nth_rewrite 1 [hinv.sent]
  exact flatten_datagramAt hnul _

/-- The first line is printed, and the second is on the way. -/
theorem multicast_in_order_two_lines : ∃ h s c, (program 1 [97, 10, 98, 10]).Run h s ∧
    s.clients[0]? = some c ∧ c.stdout = [97, 10] ∧
    c.stdout ++ c.inFlight.flatten ++ s.stdin = [97, 10, 98, 10] := by
  obtain ⟨h, s, hrun, hP⟩ := System.exists_run_of_exec (start 1 [97, 10, 98, 10]) next
    [.join 0, .send, .send, .receive 0 0]
    (fun h s => decide (∀ e ∈ h, isOrderly 0 e = true) &&
      decide (s.clients = [⟨true, [[98, 10]], [97, 10]⟩])) (by decide +kernel)
  simp only [Bool.and_eq_true, decide_eq_true_eq] at hP
  obtain ⟨horderly, hclients⟩ := hP
  have hc : s.clients[0]? = some ⟨true, [[98, 10]], [97, 10]⟩ := by rw [hclients]; rfl
  exact ⟨h, s, _, hrun, hc, rfl,
    (multicast_in_order 1 0 [97, 10, 98, 10] h s hrun horderly _ hc rfl).2 (by decide)⟩

/-! ## In any order -/

section Leads

variable {n r : ℕ} {input : List UInt8} {s : Multicast}

/-- A client takes a step of its own. -/
theorem exists_leads_client {c c' : Client} (hc : s.clients[r]? = some c) {l : Label}
    (hl : l.client = some r) (hstep : c.step l = some c') :
    ∃ s', (program n input).Leads s s' ∧ s'.sent = s.sent ∧ s'.clients[r]? = some c' := by
  refine ⟨{ s with clients := s.clients.set r c' }, .single ⟨l, ?_⟩, rfl,
    List.getElem?_set_self (List.getElem?_eq_some_iff.mp hc).1⟩
  show next s l = _
  cases l with
  | send => cases hl
  | join r' | receive r' k | fault r' f =>
    obtain rfl := Option.some.inj hl
    simp only [next, hc, hstep, Option.map_some]

/-- A client that has joined has the first datagrams on their way to it. -/
theorem exists_leads_sent (hr : r < n) (input : List UInt8) (k : ℕ) :
    ∃ s, (program n input).Leads (start n input) s ∧ s.sent.length = k ∧
      s.clients[r]? = some ⟨true, s.sent, []⟩ := by
  induction k with
  | zero =>
    have hc : (start n input).clients[r]? = some ⟨false, [], []⟩ :=
      List.getElem?_replicate_of_lt hr
    have hjoin : (⟨false, [], []⟩ : Client).step (.join r) = some ⟨true, [], []⟩ := rfl
    obtain ⟨s, hs, hsent, hc'⟩ := exists_leads_client hc rfl hjoin
    exact ⟨s, hs, congrArg List.length hsent, by rw [hsent]; exact hc'⟩
  | succ k ih =>
    obtain ⟨s, hs, hlen, hc⟩ := ih
    refine ⟨_, hs.tail ⟨.send, rfl⟩, ?_, ?_⟩
    · simp [hlen]
    · simp only [List.getElem?_map, hc]
      rfl

/-- The client prints datagrams that are on the way as often as it likes, each after it has been
duplicated. -/
theorem exists_leads_printed (n : ℕ) (input : List UInt8) {net : List (List UInt8)}
    (hnet : ∀ d ∈ net, d.take clientBufSize = d) (w : List (List UInt8)) (hw : w ⊆ net)
    {out : List UInt8} (hc : s.clients[r]? = some ⟨true, net, out⟩) :
    ∃ s', (program n input).Leads s s' ∧
      s'.clients[r]? = some ⟨true, net, out ++ w.flatten⟩ := by
  induction w generalizing s out with
  | nil => exact ⟨s, .refl, by rwa [List.flatten_nil, List.append_nil]⟩
  | cons d w ih =>
    obtain ⟨hd, hrest⟩ := List.cons_subset.mp hw
    obtain ⟨k, hk⟩ := List.mem_iff_getElem?.mp hd
    have hdouble : (⟨true, net, out⟩ : Client).step (.fault r (.duplicate k)) =
        some ⟨true, d :: net, out⟩ := by
      simp only [Client.step, Datagrams.fault, hk, Option.map_some]
    have hreceive : (⟨true, d :: net, out⟩ : Client).step (.receive r 0) =
        some ⟨true, net, out ++ d⟩ := by
      simp [Client.step, Datagrams.arrive, hnet d hd]
    obtain ⟨s₁, hs₁, -, hc₁⟩ := exists_leads_client (n := n) hc rfl hdouble
    obtain ⟨s₂, hs₂, -, hc₂⟩ := exists_leads_client hc₁ rfl hreceive
    obtain ⟨s₃, hs₃, hc₃⟩ := ih hrest hc₂
    refine ⟨s₃, (hs₁.trans hs₂).trans hs₃, ?_⟩
    rw [hc₃, List.flatten_cons, List.append_assoc]

end Leads

/-- Finitely many datagrams are among the first ones. -/
theorem exists_range {input : List UInt8} (w : List (List UInt8))
    (hw : ∀ d ∈ w, ∃ k, d = datagramAt input k) :
    ∃ n, w ⊆ (List.range n).map (datagramAt input) := by
  induction w with
  | nil => exact ⟨0, List.nil_subset _⟩
  | cons d w ih =>
    obtain ⟨⟨k, rfl⟩, hrest⟩ := List.forall_mem_cons.mp hw
    obtain ⟨n, hn⟩ := ih hrest
    have hmono : ∀ {i}, i ≤ max n (k + 1) → (List.range i).map (datagramAt input) ⊆
        (List.range (max n (k + 1))).map (datagramAt input) := fun hle =>
      List.map_subset _ (List.range_subset.mpr hle)
    refine ⟨max n (k + 1), List.cons_subset.mpr ⟨hmono (le_max_right _ _) ?_,
      List.Subset.trans hn (hmono (le_max_left _ _))⟩⟩
    exact List.mem_map_of_mem (List.mem_range.mpr k.lt_succ_self)

/-- **Whole datagrams come out.**  What client `r` can have printed, with whatever happens on
the way, is any sequence of datagrams for the input, in any order and each as often as may be. -/
theorem multicast_outputs (n r : ℕ) (input out : List UInt8) :
    (∃ h s c, (program n input).Run h s ∧ s.clients[r]? = some c ∧ c.stdout = out) ↔
      r < n ∧ ∃ w : List (List UInt8), out = w.flatten ∧ ∀ d ∈ w, ∃ k, d = datagramAt input k := by
  constructor
  · rintro ⟨h, s, c, hrun, hc, rfl⟩
    have hinv := inv_of_run hrun
    obtain ⟨w, hw, hsub⟩ := (hinv.ok c (List.mem_of_getElem? hc)).stdout
    refine ⟨?_, w, hw, fun d hd => hinv.mem_sent (hsub hd)⟩
    rw [← length_clients hrun]
    exact (List.getElem?_eq_some_iff.mp hc).1
  · rintro ⟨hr, w, rfl, hw⟩
    obtain ⟨k, hk⟩ := exists_range w hw
    obtain ⟨s, hs, hlen, hc⟩ := exists_leads_sent hr input k
    obtain ⟨h, hrun⟩ := (System.Run.start (M := program n input) rfl).leads hs
    have hinv := inv_of_run hrun
    have hsent : w ⊆ s.sent := by
      rw [hinv.sent, hlen]
      exact hk
    have htake : ∀ d ∈ s.sent, d.take clientBufSize = d := by
      intro d hd
      obtain ⟨j, rfl⟩ := hinv.mem_sent hd
      exact datagramAt_take input j
    obtain ⟨s', hs', hc'⟩ := exists_leads_printed n input htake w hsent hc
    obtain ⟨h', hrun'⟩ := hrun.leads hs'
    exact ⟨_, s', _, hrun', hc', List.nil_append _⟩

end Multicast

end LinuxExercise.Network
