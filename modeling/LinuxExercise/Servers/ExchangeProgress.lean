import LinuxExercise.Servers.Exchange

/-!
# The client is never left waiting

While the client waits for a reply, a byte of it is under way (`Exchange.Inv`).  Here it is shown
that this byte can always reach the client: wherever the server is, it can finish its round
(`finish`), accept the client if it has not done so yet (`let_in`) and serve it (`answer`).

The one obstacle is a table that is full of other clients; `make_room` lets one of them leave.
-/

namespace LinuxExercise.Servers.Exchange

open SlotTable
open Select.Loop (not_replying_of_select)

/-! ## What the server may rely on inside a round -/

/-- There is something to read from the client's connection. -/
def Readable (x : Exchange) : Prop := x.toServer ≠ [] ∨ x.Ended

/-- The client's connection is still readable when the scan gets to it, and there is still room
for a connection that `select` has reported. -/
def Reported (x : Exchange) : Prop :=
  match x.server.pc with
  | .select => True
  | .accept rset _ => Room x.server.vars ∧ rset ⊆ x.server.vars.allset ∧
      ∀ fd ∈ rset, x.link = .opened fd → x.Readable
  | .scan rset _ i => ∀ j, i ≤ j → x.server.vars.client j ∈ rset →
      x.link = .opened (x.server.vars.client j) → x.Readable
  | .reply rset _ i _ => ∀ j, i < j → x.server.vars.client j ∈ rset →
      x.link = .opened (x.server.vars.client j) → x.Readable

/-- Every descriptor and every slot in use is below `FD_SETSIZE`. -/
structure Bounded (s : Select) : Prop where
  fds : ∀ fd ∈ s.connections, fd < fdSetSize
  slots : s.maxi < fdSetSize

/-- What holds of every state the two programs reach. -/
structure Sound (input : List UInt8) (x : Exchange) : Prop where
  inv : x.Inv input
  reported : x.Reported
  bounded : Bounded x.server.vars
  failed : x.server.vars.exited ≠ none → x.server.vars.exited = some (-1)

theorem Reported.client {x x' : Exchange} (h : x.Reported) (hserver : x'.server = x.server)
    (hlink : x'.link = x.link) (hreadable : x.Readable → x'.Readable) : x'.Reported := by
  unfold Reported at h ⊢
  rw [hserver, hlink]
  split
  · trivial
  · next hpc =>
    rw [hpc] at h
    exact ⟨h.1, h.2.1, fun fd hfd hown => hreadable (h.2.2 fd hfd hown)⟩
  · next hpc =>
    rw [hpc] at h
    exact fun j hj hfd hown => hreadable (h j hj hfd hown)
  · next hpc =>
    rw [hpc] at h
    exact fun j hj hfd hown => hreadable (h j hj hfd hown)

theorem handle_connections (r : ReadResult) (i : ℕ) (s : Select) :
    (Select.Loop.handle r i s).1.connections ⊆ s.connections := by
  unfold Select.Loop.handle
  simp only
  split
  · exact Finset.erase_subset ..
  · exact Finset.Subset.refl _

theorem Bounded.handle {s : Select} (h : Bounded s) (r : ReadResult) (i : ℕ) :
    Bounded (Select.Loop.handle r i s).1 where
  fds fd hfd := h.fds fd (handle_connections r i s hfd)
  slots := by
    rw [Select.Loop.handle_maxi]
    exact h.slots

theorem Bounded.acceptClient {s : Select} (h : Bounded s) {connfd : ℤ} (hpos : 0 ≤ connfd)
    (hlt : connfd < fdSetSize) : Bounded (Select.acceptClient connfd s) where
  fds fd hfd := by
    rw [Select.acceptClient_connections hpos, Finset.mem_insert] at hfd
    rcases hfd with rfl | hmem
    · exact hlt
    · exact h.fds fd hmem
  slots := by
    have hslots := h.slots
    have hle : firstVacant vacant s.client fdSetSize 0 ≤ 0 + fdSetSize :=
      firstVacant_le fdSetSize 0
    unfold Select.acceptClient
    simp only
    split
    · exact hslots
    · simp only
      split <;> omega

theorem Bounded.advance {s s' : Select.Loop} {l : Select.Loop.Label} {calls : List Call}
    (h : Bounded s.vars) (henv : s.Env l)
    (hstep : Select.Loop.advance s l = some (s', calls)) : Bounded s'.vars := by
  cases Select.Loop.stepped_of_advance hstep with
  | fail => exact ⟨h.fds, h.slots⟩
  | select => exact h
  | accept => exact h.acceptClient henv.1 henv.2.1
  | skip => exact h
  | read => exact h
  | reply => exact h.handle ..

theorem handle_other (r : ReadResult) {i j : ℕ} (hij : j ≠ i) (s : Select) :
    (Select.Loop.handle r i s).1.client j = s.client j := by
  unfold Select.Loop.handle
  simp only
  split
  · exact Function.update_of_ne hij ..
  · rfl

/-- A `read` takes what it returns. -/
theorem serverCall_read (r : ReadResult) (own : Bool) (fd : ℤ) (x : Exchange) :
    (serverCall (.slot r) own x (.read fd)).server = x.server ∧
      (serverCall (.slot r) own x (.read fd)).link = x.link ∧
      (x.link = .opened fd →
        (serverCall (.slot r) own x (.read fd)).toServer = x.toServer.drop r.n.toNat) := by
  simp only [serverCall]
  split
  · exact ⟨rfl, rfl, fun _ => rfl⟩
  · next hother => exact ⟨rfl, rfl, fun hown => absurd hown hother⟩

/-- A reply can close the connection, and takes nothing from it. -/
theorem serverCall_reply (own : Bool) (c : Call) (x : Exchange) :
    (serverCall .reply own x c).server = x.server ∧
      (serverCall .reply own x c).client = x.client ∧
      (serverCall .reply own x c).toServer = x.toServer ∧
      ∀ fd, (serverCall .reply own x c).link = .opened fd → x.link = .opened fd := by
  cases c with
  | accept => exact ⟨rfl, rfl, rfl, fun _ hlink => hlink⟩
  | read fd => exact ⟨rfl, rfl, rfl, fun _ hlink => hlink⟩
  | write fd buf count =>
    simp only [serverCall]
    split <;> exact ⟨rfl, rfl, rfl, fun _ hlink => hlink⟩
  | close fd =>
    simp only [serverCall]
    split
    · exact ⟨rfl, rfl, rfl, fun _ heq => by cases heq⟩
    · exact ⟨rfl, rfl, rfl, fun _ hlink => hlink⟩

theorem Reported.server {x x' : Exchange} {l : Select.Loop.Label} {own : Bool}
    (h : x.Reported) (hinv : x.server.Inv) (henv : x.Env (.server l own))
    (hstep : x.step (.server l own) = some x') : x'.Reported := by
  obtain ⟨server, calls, hadvance, rfl⟩ := server_cases hstep
  have hrunning := running_of_advance hinv hadvance
  have hvars := hinv.vars hrunning
  unfold Reported at h
  cases Select.Loop.stepped_of_advance hadvance with
  | fail => trivial
  | @select nready rset pc _ _ hpos hnext =>
    obtain ⟨hopen, hroom⟩ := henv.2 hpos
    obtain ⟨hsub, -⟩ := henv.1 hpos
    rcases hnext with ⟨hlisten, rfl⟩ | ⟨-, rfl⟩
    · exact ⟨hroom hlisten, hsub, hopen⟩
    · exact fun j _ hfd hown => hopen _ hfd hown
  | @accept rset nready connfd pc hpc hnext =>
    rw [hpc] at h
    obtain ⟨⟨hroom, -⟩, hsub, hopen⟩ := h
    rcases hnext with rfl | ⟨-, rfl⟩
    · cases own <;> trivial
    cases own with
    | false => exact fun j _ hfd hown => hopen _ hfd hown
    | true =>
      intro j _ hfd hown
      obtain ⟨-, -, hne, hnew⟩ := henv.1
      have hmem : connfd ∈ x.server.vars.allset := hsub (Link.opened.inj hown ▸ hfd)
      rw [hvars.watched, Finset.mem_insert] at hmem
      exact (hmem.elim hne hnew).elim
  | @skip rset nready i r pc hpc hnext =>
    rw [hpc] at h
    rcases hnext with rfl | rfl
    · trivial
    · exact fun j hj => h j (by omega)
  | @read rset nready i r hpc hready =>
    rw [hpc] at h
    have hocc : ¬ vacant (x.server.vars.client i) := (of_decide_eq_true hready).1
    simp only [List.foldl_cons, List.foldl_nil, serverCall]
    split
    · next hown =>
      intro j hj hfd hown'
      have heq : i = j := hvars.table.distinct i j hocc (Link.opened.inj (hown.symm.trans hown'))
      omega
    · exact fun j hj => h j hj.le
  | @reply rset nready i r pc hpc hnext =>
    rw [hpc] at h
    obtain ⟨hserver, hclient, hto, hlink⟩ := serverCall_reply own
      (Select.Loop.handle r i x.server.vars).2
      { x with server := ⟨(Select.Loop.handle r i x.server.vars).1, pc⟩ }
    show (serverCall .reply own _ _).Reported
    generalize serverCall .reply own _ _ = y at hserver hclient hto hlink ⊢
    unfold Reported
    rw [hserver]
    rcases hnext with rfl | rfl
    · trivial
    · intro j hj hfd hown
      have hother := handle_other r (show j ≠ i by omega) x.server.vars
      simp only [hother] at hfd hown
      rw [Readable, Ended, hclient, hto]
      exact h j hj hfd (hlink _ hown)

/-- The server gives up only when `select` fails. -/
theorem failed_of_advance {x : Exchange} {l : Select.Loop.Label} {server : Select.Loop}
    {calls : List Call} (h : x.Reported) (hinv : x.server.Inv) (henv : x.server.Env l)
    (hadvance : Select.Loop.advance x.server l = some (server, calls))
    (hexit : server.vars.exited ≠ none) : server.vars.exited = some (-1) := by
  have hrunning := running_of_advance hinv hadvance
  cases Select.Loop.stepped_of_advance hadvance with
  | fail => rfl
  | select => exact absurd hrunning hexit
  | accept hpc =>
    rw [Reported, hpc] at h
    rw [(Select.acceptClient_room h.1.1 henv.1).1] at hexit
    exact absurd hrunning hexit
  | skip => exact absurd hrunning hexit
  | read => exact absurd hrunning hexit
  | reply =>
    rw [Select.Loop.handle_exited] at hexit
    exact absurd hrunning hexit

theorem Sound.step {input : List UInt8} (hnul : 0 ∉ input) {x x' : Exchange} {l : Label}
    (h : x.Sound input) (henv : x.Env l) (hstep : x.step l = some x') : x'.Sound input := by
  have hinv := h.inv.step hnul henv hstep
  cases l with
  | server l own =>
    have hreported := h.reported.server h.inv.server henv hstep
    obtain ⟨server, calls, hadvance, rfl⟩ := server_cases hstep
    refine ⟨hinv, hreported, ?_, ?_⟩ <;> rw [serverCalls_server]
    · exact h.bounded.advance henv.1 hadvance
    · exact failed_of_advance h.reported h.inv.server henv.1 hadvance
  | client l =>
    obtain ⟨c, hc, rfl⟩ := Option.map_eq_some_iff.mp hstep
    cases LineClient.stepped_of_step hc with
    | fgets hpc =>
      have hopen := not_ended_of_pc hpc nofun
      exact ⟨hinv, h.reported.client rfl rfl fun hread => .inl (hread.resolve_right hopen),
        h.bounded, h.failed⟩
    | write hpc =>
      have hopen := not_ended_of_pc hpc nofun
      refine ⟨hinv, h.reported.client rfl rfl fun hread => .inl ?_, h.bounded, h.failed⟩
      exact List.append_ne_nil_of_left_ne_nil (hread.resolve_right hopen) _
    | read r hpc =>
      have hopen := not_ended_of_pc hpc nofun
      exact ⟨hinv, h.reported.client rfl rfl fun hread => .inl (hread.resolve_right hopen),
        h.bounded, h.failed⟩
    | print hpc =>
      have hopen := not_ended_of_pc hpc nofun
      exact ⟨hinv, h.reported.client rfl rfl fun hread => .inl (hread.resolve_right hopen),
        h.bounded, h.failed⟩

theorem start_sound (listenfd : ℤ) (input : List UInt8) : (start listenfd input).Sound input where
  inv := start_inv listenfd input
  reported := trivial
  bounded := ⟨nofun, show (-1 : ℤ) < fdSetSize by decide⟩
  failed hexit := absurd rfl hexit

theorem sound_of_run {listenfd : ℤ} {input : List UInt8} (hnul : 0 ∉ input)
    {h : List (Event Exchange Label)} {x : Exchange} (hrun : (system listenfd input).Run h x) :
    x.Sound input := by
  refine hrun.invariant (I := fun x => x.Sound input) ?_ ?_
  · rintro x rfl
    exact start_sound listenfd input
  · rintro x l x' - ⟨henv, hstep⟩ hsound
    exact hsound.step hnul henv hstep

/-! ## The server alone -/

/-- The server gets from `x` to `x'` while the client stays where it is. -/
structure Serves (listenfd : ℤ) (input : List UInt8) (x x' : Exchange) : Prop where
  leads : (system listenfd input).Leads x x'
  client : x'.client = x.client
  flow : x'.flow = x.flow
  running : x'.server.vars.exited = none
  sound : x'.Sound input

section Serving

variable (listenfd : ℤ) {input : List UInt8}

theorem Serves.refl {listenfd : ℤ} {x : Exchange} (h : x.Sound input)
    (hrunning : x.server.vars.exited = none) : Serves listenfd input x x :=
  ⟨.refl, rfl, rfl, hrunning, h⟩

theorem Serves.trans {listenfd : ℤ} {x y z : Exchange} (h : Serves listenfd input x y)
    (h' : Serves listenfd input y z) : Serves listenfd input x z :=
  ⟨h.leads.trans h'.leads, h'.client.trans h.client, h'.flow.trans h.flow, h'.running, h'.sound⟩

/-- One step of the server. -/
theorem Sound.serves (hnul : 0 ∉ input) {x : Exchange} (h : x.Sound input)
    {l : Select.Loop.Label} {own : Bool} {server : Select.Loop} {calls : List Call}
    (henv : x.Env (.server l own))
    (hadvance : Select.Loop.advance x.server l = some (server, calls))
    (hrunning : server.vars.exited = none) :
    Serves listenfd input x (calls.foldl (serverCall l own) { x with server := server }) := by
  have hstep : x.step (.server l own) =
      some (calls.foldl (serverCall l own) { x with server := server }) := by
    rw [Exchange.step, hadvance]
    rfl
  obtain ⟨hclient, hflow⟩ := flow_of_server h.inv.server henv hstep
  refine ⟨.single ⟨_, henv, hstep⟩, hclient, hflow, ?_, h.step hnul henv hstep⟩
  rw [serverCalls_server]
  exact hrunning

/-- A `read` of a stream that is not empty may return its first byte. -/
theorem exists_returns_data {stream : List UInt8} (ended : Prop) (h : stream ≠ []) :
    ∃ bytes, Returns stream ended (.data bytes) := by
  obtain ⟨c, cs, rfl⟩ := List.exists_cons_of_ne_nil h
  have hvalid : (ReadResult.data [c]).Valid := ⟨Nat.one_pos, show 1 ≤ maxLine by decide⟩
  exact ⟨[c], hvalid, (List.prefix_cons_inj c).2 List.nil_prefix⟩

/-- A `read` that does not block returns. -/
theorem exists_returns {stream : List UInt8} {ended : Prop} (h : stream ≠ [] ∨ ended) :
    ∃ r, Returns stream ended r := by
  by_cases hne : stream = []
  · exact ⟨.eof, hne, h.resolve_left fun hstream => hstream hne⟩
  · obtain ⟨bytes, hr⟩ := exists_returns_data ended hne
    exact ⟨_, hr⟩

theorem Returns.valid {stream : List UInt8} {ended : Prop} {r : ReadResult}
    (h : Returns stream ended r) : 0 ≤ r.n ∧ r.Valid := by
  cases r with
  | data bytes => exact ⟨Int.natCast_nonneg _, h.1⟩
  | eof => exact ⟨le_rfl, trivial⟩
  | error => exact h.elim

/-- The reply is due, and is made. -/
theorem finish_reply (hnul : 0 ∉ input) {x : Exchange} (h : x.Sound input)
    {rset : Finset ℤ} {nready : ℤ} {i : ℕ} {r : ReadResult}
    (hpc : x.server.pc = .reply rset nready i r) :
    ∃ x', Serves listenfd input x x' ∧
      x'.server.vars = (Select.Loop.handle r i x.server.vars).1 ∧
      (x'.server.pc = if nready - 1 = 0 then .select else .scan rset (nready - 1) (i + 1)) ∧
      x'.toServer = x.toServer ∧ ∀ fd, x'.link = .opened fd → x.link = .opened fd := by
  have hrunning := h.inv.server.exited_eq hpc (by simp)
  obtain ⟨pc, hadvance, hpc'⟩ : ∃ pc, Select.Loop.advance x.server .reply =
      some (⟨(Select.Loop.handle r i x.server.vars).1, pc⟩,
        [(Select.Loop.handle r i x.server.vars).2]) ∧
      pc = if nready - 1 = 0 then .select else .scan rset (nready - 1) (i + 1) := by
    refine ⟨_, ?_, rfl⟩
    unfold Select.Loop.advance
    rw [hpc]
    simp only
    split <;> rfl
  have henv : x.Env (.server .reply false) := ⟨trivial, trivial⟩
  have hserves := h.serves listenfd hnul henv hadvance
    ((Select.Loop.handle_exited ..).trans hrunning)
  obtain ⟨hserver, -, hto, hlink⟩ := serverCall_reply false
    (Select.Loop.handle r i x.server.vars).2
    { x with server := ⟨(Select.Loop.handle r i x.server.vars).1, pc⟩ }
  exact ⟨_, hserves, congrArg _ hserver, (congrArg _ hserver).trans hpc', hto, hlink⟩

/-- A ready slot is served. -/
theorem serve_slot (hnul : 0 ∉ input) {x : Exchange} (h : x.Sound input)
    {rset : Finset ℤ} {nready : ℤ} {i : ℕ} (hpc : x.server.pc = .scan rset nready i)
    (hi : (i : ℤ) ≤ x.server.vars.maxi) (hready : Select.ready rset x.server.vars i = true)
    {r : ReadResult} (hvalid : 0 ≤ r.n ∧ r.Valid)
    (hr : x.link = .opened (x.server.vars.client i) → Returns x.toServer x.Ended r) :
    ∃ x', Serves listenfd input x x' ∧
      x'.server.vars = (Select.Loop.handle r i x.server.vars).1 ∧
      (x'.server.pc = if nready - 1 = 0 then .select else .scan rset (nready - 1) (i + 1)) ∧
      (x.link = .opened (x.server.vars.client i) →
        x'.toServer = x.toServer.drop r.n.toNat) ∧
      ∀ fd, x'.link = .opened fd → x.link = .opened fd := by
  have hrunning := h.inv.server.exited_eq hpc (by simp)
  have hadvance : Select.Loop.advance x.server (.slot r) =
      some (⟨x.server.vars, .reply rset nready i r⟩, [.read (x.server.vars.client i)]) := by
    simp only [Select.Loop.advance, hpc, if_pos hi, if_pos hready]
  have henv : x.Env (.server (.slot r) false) := by
    refine ⟨fun _ _ _ _ _ => hvalid, fun rset' nready' j hpc' _ hown => ?_⟩
    obtain ⟨-, -, rfl⟩ := Select.Loop.Pc.scan.inj (hpc.symm.trans hpc')
    exact hr hown
  have hserves := h.serves listenfd hnul henv hadvance hrunning
  obtain ⟨hserver, hlink, hto⟩ := serverCall_read r false (x.server.vars.client i)
    { x with server := ⟨x.server.vars, .reply rset nready i r⟩ }
  obtain ⟨z, hz, hvars, hpc', hto', hlink'⟩ :=
    finish_reply listenfd hnul hserves.sound (congrArg _ hserver)
  refine ⟨z, hserves.trans hz, ?_, hpc', fun hown => hto'.trans (hto hown),
    fun fd hfd => hlink ▸ hlink' fd hfd⟩
  exact hvars.trans (congrArg (fun s => (Select.Loop.handle r i s.vars).1) hserver)

/-- The server makes no call for a slot that is not ready. -/
theorem env_slot {x : Exchange} {rset : Finset ℤ} {nready : ℤ} {i : ℕ}
    (hpc : x.server.pc = .scan rset nready i)
    (hnot : ¬ Select.ready rset x.server.vars i = true) :
    x.Env (.server (.slot .eof) false) := by
  refine ⟨fun _ _ _ _ _ => ⟨le_rfl, trivial⟩, fun rset' nready' j hpc' hready' _ => ?_⟩
  obtain ⟨rfl, rfl, rfl⟩ := Select.Loop.Pc.scan.inj (hpc.symm.trans hpc')
  exact absurd hready' hnot

/-- A slot that is not ready is left alone. -/
theorem skip_slot (hnul : 0 ∉ input) {x : Exchange} (h : x.Sound input)
    {rset : Finset ℤ} {nready : ℤ} {i : ℕ} (hpc : x.server.pc = .scan rset nready i)
    (hi : (i : ℤ) ≤ x.server.vars.maxi) (hnot : ¬ Select.ready rset x.server.vars i = true) :
    Serves listenfd input x { x with server := ⟨x.server.vars, .scan rset nready (i + 1)⟩ } := by
  have hadvance : Select.Loop.advance x.server (.slot .eof) =
      some (⟨x.server.vars, .scan rset nready (i + 1)⟩, []) := by
    simp only [Select.Loop.advance, hpc, if_pos hi, if_neg hnot]
  exact h.serves listenfd hnul (env_slot hpc hnot) hadvance
    (h.inv.server.exited_eq hpc (by simp))

/-- The scan goes on with the next slot, or ends. -/
theorem finish_slot (hnul : 0 ∉ input) {x : Exchange} (h : x.Sound input)
    {rset : Finset ℤ} {nready : ℤ} {i : ℕ} (hpc : x.server.pc = .scan rset nready i)
    (hi : (i : ℤ) ≤ x.server.vars.maxi) :
    ∃ x', Serves listenfd input x x' ∧ x'.server.vars.maxi = x.server.vars.maxi ∧
      (x'.server.pc = .select ∨ ∃ nready', x'.server.pc = .scan rset nready' (i + 1)) := by
  have hrunning := h.inv.server.exited_eq hpc (by simp)
  by_cases hready : Select.ready rset x.server.vars i = true
  · have hread : x.link = .opened (x.server.vars.client i) → x.Readable := by
      have hreported := h.reported
      rw [Reported, hpc] at hreported
      exact hreported i le_rfl (of_decide_eq_true hready).2
    obtain ⟨r, hvalid, hr⟩ : ∃ r : ReadResult, (0 ≤ r.n ∧ r.Valid) ∧
        (x.link = .opened (x.server.vars.client i) → Returns x.toServer x.Ended r) := by
      by_cases hown : x.link = .opened (x.server.vars.client i)
      · obtain ⟨r, hr⟩ := exists_returns (hread hown)
        exact ⟨r, hr.valid, fun _ => hr⟩
      · exact ⟨.eof, ⟨le_rfl, trivial⟩, fun h => absurd h hown⟩
    obtain ⟨y, hy, hvars, hpc', -⟩ :=
      serve_slot listenfd hnul h hpc hi hready hvalid hr
    refine ⟨y, hy, by rw [hvars, Select.Loop.handle_maxi], ?_⟩
    split at hpc'
    · exact .inl hpc'
    · exact .inr ⟨_, hpc'⟩
  · exact ⟨_, skip_slot listenfd hnul h hpc hi hready, rfl, .inr ⟨nready, rfl⟩⟩

/-- The scan comes to its end; `n` slots are left to look at. -/
theorem finish_scan (hnul : 0 ∉ input) {rset : Finset ℤ} (n : ℕ) {x : Exchange}
    (h : x.Sound input) {nready : ℤ} {i : ℕ} (hpc : x.server.pc = .scan rset nready i)
    (hn : (x.server.vars.maxi + 1).toNat ≤ i + n) :
    ∃ x', Serves listenfd input x x' ∧ x'.server.pc = .select := by
  induction n generalizing x nready i with
  | zero =>
    have hrunning := h.inv.server.exited_eq hpc (by simp)
    have hend : ¬ (i : ℤ) ≤ x.server.vars.maxi := by omega
    have hadvance : Select.Loop.advance x.server (.slot .eof) =
        some (⟨x.server.vars, .select⟩, []) := by
      simp only [Select.Loop.advance, hpc, if_neg hend]
    have hnot : ¬ Select.ready rset x.server.vars i = true := fun hready => by
      have hbelow := (h.inv.server.vars hrunning).table.below i (of_decide_eq_true hready).1
      omega
    exact ⟨_, h.serves listenfd hnul (env_slot hpc hnot) hadvance hrunning, rfl⟩
  | succ n ih =>
    by_cases hi : (i : ℤ) ≤ x.server.vars.maxi
    · obtain ⟨y, hy, hmaxi, hpc' | ⟨nready', hpc'⟩⟩ :=
        finish_slot listenfd hnul h hpc hi
      · exact ⟨y, hy, hpc'⟩
      · obtain ⟨z, hz, hpc''⟩ := ih hy.sound hpc' (by omega)
        exact ⟨z, hy.trans hz, hpc''⟩
    · exact ih h hpc (by omega)

/-- There is room for the connection that `select` has reported. -/
theorem finish_accept (hnul : 0 ∉ input) {x : Exchange} (h : x.Sound input) {rset : Finset ℤ}
    {nready : ℤ} (hpc : x.server.pc = .accept rset nready) :
    ∃ x', Serves listenfd input x x' ∧
      (x'.server.pc = .select ∨ x'.server.pc = .scan rset (nready - 1) 0) := by
  have hrunning := h.inv.server.exited_eq hpc (by simp)
  have hreported := h.reported
  rw [Reported, hpc] at hreported
  obtain ⟨⟨hroom, connfd, hfresh⟩, -⟩ := hreported
  obtain ⟨hexited, -⟩ := Select.acceptClient_room hroom hfresh.1
  have hgo : (Select.acceptClient connfd x.server.vars).exited = none := hexited.trans hrunning
  obtain ⟨pc, hadvance, hpc'⟩ : ∃ pc, Select.Loop.advance x.server (.accept connfd) =
      some (⟨Select.acceptClient connfd x.server.vars, pc⟩, [.accept]) ∧
      (pc = .select ∨ pc = .scan rset (nready - 1) 0) := by
    by_cases hlast : nready - 1 = 0
    · exact ⟨.select, by simp [Select.Loop.advance, hpc, hgo, hlast], .inl rfl⟩
    · exact ⟨_, by simp [Select.Loop.advance, hpc, hgo, hlast], .inr rfl⟩
  have henv : x.Env (.server (.accept connfd) false) := ⟨hfresh, fun hown => by cases hown⟩
  exact ⟨_, h.serves listenfd hnul henv hadvance hgo, hpc'⟩

/-- Wherever the server is, it gets back to its `select`. -/
theorem finish (hnul : 0 ∉ input) {x : Exchange} (h : x.Sound input)
    (hrunning : x.server.vars.exited = none) :
    ∃ x', Serves listenfd input x x' ∧ x'.server.pc = .select := by
  generalize hpc : x.server.pc = pc
  cases pc with
  | select => exact ⟨x, .refl h hrunning, hpc⟩
  | scan rset nready i => exact finish_scan listenfd hnul _ h hpc (Nat.le_add_left _ i)
  | reply rset nready i r =>
    obtain ⟨y, hy, -, hpc', -⟩ := finish_reply listenfd hnul h hpc
    split at hpc'
    · exact ⟨y, hy, hpc'⟩
    · obtain ⟨z, hz, hpc''⟩ := finish_scan listenfd hnul _ hy.sound hpc'
        (Nat.le_add_left _ (i + 1))
      exact ⟨z, hy.trans hz, hpc''⟩
  | accept rset nready =>
    obtain ⟨y, hy, hpc' | hpc'⟩ := finish_accept listenfd hnul h hpc
    · exact ⟨y, hy, hpc'⟩
    · obtain ⟨z, hz, hpc''⟩ := finish_scan listenfd hnul _ hy.sound hpc' (Nat.le_add_left _ 0)
      exact ⟨z, hy.trans hz, hpc''⟩

/-! ## One client is served -/

theorem skip_to (hnul : 0 ∉ input) {rset : Finset ℤ} {nready : ℤ} {x : Exchange}
    (h : x.Sound input) (hpc : x.server.pc = .scan rset nready 0) (j : ℕ)
    (hj : (j : ℤ) ≤ x.server.vars.maxi)
    (hskip : ∀ k < j, ¬ Select.ready rset x.server.vars k = true) :
    Serves listenfd input x { x with server := ⟨x.server.vars, .scan rset nready j⟩ } := by
  induction j with
  | zero =>
    have hsame : { x with server := ⟨x.server.vars, .scan rset nready 0⟩ } = x := by
      rw [← hpc]
    rw [hsame]
    exact .refl h (h.inv.server.exited_eq hpc (by simp))
  | succ j ih =>
    have hy := ih (by omega) fun k hk => hskip k (by omega)
    have hmore : (j : ℤ) ≤ x.server.vars.maxi := by omega
    exact hy.trans (skip_slot listenfd hnul hy.sound rfl hmore (hskip j (Nat.lt_succ_self j)))

theorem Returns.readable {x : Exchange} {r : ReadResult} (h : Returns x.toServer x.Ended r) :
    x.Readable := by
  cases r with
  | data bytes =>
    obtain ⟨⟨hpos, -⟩, hprefix⟩ := h
    exact .inl fun hnil => by simp [List.prefix_nil.mp (hnil ▸ hprefix)] at hpos
  | eof => exact .inr h.2
  | error => exact h.elim

/-- A round in which one connection is served and nothing else happens. -/
theorem serve_one (hnul : 0 ∉ input) {x : Exchange} (h : x.Sound input)
    (hpc : x.server.pc = .select) (hrunning : x.server.vars.exited = none) {fd : ℤ}
    (hfd : fd ∈ x.server.vars.connections) {r : ReadResult} (hvalid : 0 ≤ r.n ∧ r.Valid)
    (hr : x.link = .opened fd → Returns x.toServer x.Ended r) :
    ∃ y j, Serves listenfd input x y ∧ y.server.pc = .select ∧ x.server.vars.client j = fd ∧
      (j : ℤ) ≤ x.server.vars.maxi ∧
      y.server.vars = (Select.Loop.handle r j x.server.vars).1 ∧
      (x.link = .opened fd → y.toServer = x.toServer.drop r.n.toNat) ∧
      ∀ fd, y.link = .opened fd → x.link = .opened fd := by
  have hvars := h.inv.server.vars hrunning
  obtain ⟨hocc, j, rfl⟩ := (hvars.table.mem_iff fd).1 hfd
  have hj := hvars.table.below j hocc
  have hlisten : x.server.vars.listenfd ∉ ({x.server.vars.client j} : Finset ℤ) := by
    rw [Finset.mem_singleton]
    exact fun heq => hvars.listening (heq ▸ hfd)
  have hadvance : Select.Loop.advance x.server (.select 1 {x.server.vars.client j}) =
      some (⟨x.server.vars, .scan {x.server.vars.client j} 1 0⟩, []) := by
    simp only [Select.Loop.advance, hpc, if_pos hrunning, if_neg hlisten]
    rfl
  have henv : x.Env (.server (.select 1 {x.server.vars.client j}) false) := by
    refine ⟨fun _ => ⟨?_, rfl⟩, fun _ => ⟨fun fd hmem hown => ?_, fun hmem => absurd hmem hlisten⟩⟩
    · rw [Finset.singleton_subset_iff, hvars.watched]
      exact Finset.mem_insert_of_mem hfd
    · rw [Finset.mem_singleton.mp hmem] at hown
      exact (hr hown).readable
  have hy := h.serves listenfd hnul henv hadvance hrunning
  have hjm : (j : ℤ) ≤ x.server.vars.maxi := by omega
  have hskip := skip_to listenfd hnul hy.sound rfl j hjm fun k hk hready => by
    have heq := Finset.mem_singleton.mp (of_decide_eq_true hready).2
    have := hvars.table.distinct k j (of_decide_eq_true hready).1 heq
    omega
  have hready : Select.ready {x.server.vars.client j} x.server.vars j = true :=
    decide_eq_true ⟨hocc, Finset.mem_singleton_self _⟩
  obtain ⟨z, hz, hvars', hpc', hto, hlink⟩ :=
    serve_slot listenfd hnul hskip.sound rfl hjm hready hvalid hr
  exact ⟨z, j, (hy.trans hskip).trans hz, hpc', rfl, hjm, hvars', hto, hlink⟩

/-- The client's connection is served, and the reply sent. -/
theorem answer (hnul : 0 ∉ input) {x : Exchange} (h : x.Sound input)
    (hpc : x.server.pc = .select) (hrunning : x.server.vars.exited = none) {fd : ℤ}
    (hlink : x.link = .opened fd) (hread : x.client.pc = .read) :
    ∃ y, Serves listenfd input x y ∧ y.toClient ≠ [] := by
  by_cases hreply : x.toClient ≠ []
  · exact ⟨x, .refl h hrunning, hreply⟩
  rw [ne_eq, not_not] at hreply
  have hsent : x.toServer ≠ [] := fun hnil => by
    have hflight := h.inv.in_flight hread
    rw [held_of_idle (not_replying_of_select hpc), hnil, hreply] at hflight
    exact absurd hflight (by decide)
  obtain ⟨r, hr⟩ : ∃ r, Returns x.toServer x.Ended r := exists_returns (.inl hsent)
  obtain ⟨y, j, hy, hpc', -, -, -, hto, -⟩ := serve_one listenfd hnul h hpc hrunning
    (h.inv.linked.opened fd hlink) hr.valid fun _ => hr
  refine ⟨y, hy, fun hnil => ?_⟩
  obtain ⟨bytes, hstream, ⟨rfl, hvalid⟩ | ⟨rfl, -, -⟩⟩ := returns_buf hr
  · have hpos : 0 < bytes.length := hvalid.1
    have hsplit := congrArg List.length hstream
    have hflow := congrArg List.length hy.flow
    rw [flow_of_idle (not_replying_of_select hpc'),
      flow_of_idle (not_replying_of_select hpc), hto hlink, hnil] at hflow
    simp only [List.length_append, List.length_map, List.length_nil] at hsplit hflow
    omega
  · exact absurd hr.1 hsent

/-- If there is no room, one of the other clients leaves. -/
theorem make_room (hnul : 0 ∉ input) {x : Exchange} (h : x.Sound input)
    (hpc : x.server.pc = .select) (hrunning : x.server.vars.exited = none)
    (hlink : x.link = .backlog) :
    ∃ y, Serves listenfd input x y ∧ y.server.pc = .select ∧ Room y.server.vars ∧
      ∀ fd, y.link ≠ .opened fd := by
  have hvars := h.inv.server.vars hrunning
  have hown : ∀ fd, x.link ≠ .opened fd := fun fd heq => by
    rw [hlink] at heq
    cases heq
  rcases x.server.vars.connections.eq_empty_or_nonempty with hempty | ⟨fd, hfd⟩
  · refine ⟨x, .refl h hrunning, hpc, ⟨fun hfull => ?_, ?_⟩, hown⟩
    · have hmem := (hvars.table.mem_iff (x.server.vars.client 0)).2
        ⟨not_lt.mpr (hfull 0 (by decide)), 0, rfl⟩
      rw [hempty] at hmem
      simp at hmem
    · rw [hempty]
      by_cases hzero : x.server.vars.listenfd = 0
      · exact ⟨1, by decide, by decide, by rw [hzero]; decide, Finset.notMem_empty _⟩
      · exact ⟨0, le_rfl, by decide, Ne.symm hzero, Finset.notMem_empty _⟩
  · have heof : 0 ≤ ReadResult.eof.n ∧ ReadResult.eof.Valid := ⟨le_rfl, trivial⟩
    obtain ⟨y, j, hy, hpc', rfl, hj, hvars', -, hlink'⟩ := serve_one listenfd hnul h
      hpc hrunning hfd heof fun heq => absurd heq (hown fd)
    have hslots := h.bounded.slots
    refine ⟨y, hy, hpc', ⟨fun hfull => ?_, x.server.vars.client j, ?_⟩,
      fun fd heq => hown fd (hlink' fd heq)⟩
    · have hslot : y.server.vars.client j = -1 := by
        rw [hvars']
        exact Function.update_self ..
      have := hfull j (by omega)
      omega
    · rw [hvars']
      have hpos := ((hvars.table.mem_iff _).1 hfd).1
      exact ⟨not_lt.mp hpos, h.bounded.fds _ hfd, fun heq => hvars.listening (heq ▸ hfd),
        Finset.notMem_erase _ _⟩

/-- The client's connection is accepted. -/
theorem let_in (hnul : 0 ∉ input) {x : Exchange} (h : x.Sound input)
    (hpc : x.server.pc = .select) (hrunning : x.server.vars.exited = none)
    (hlink : x.link = .backlog) (hroom : Room x.server.vars) :
    ∃ y fd, Serves listenfd input x y ∧ y.server.pc = .select ∧ y.link = .opened fd := by
  have hvars := h.inv.server.vars hrunning
  have hadvance : Select.Loop.advance x.server (.select 1 {x.server.vars.listenfd}) =
      some (⟨x.server.vars, .accept {x.server.vars.listenfd} 1⟩, []) := by
    simp only [Select.Loop.advance, hpc, if_pos hrunning, Finset.mem_singleton]
    rfl
  have henv : x.Env (.server (.select 1 {x.server.vars.listenfd}) false) := by
    refine ⟨fun _ => ⟨?_, rfl⟩, fun _ => ⟨fun fd _ hown => ?_, fun _ => hroom⟩⟩
    · rw [Finset.singleton_subset_iff, hvars.watched]
      exact Finset.mem_insert_self ..
    · rw [hlink] at hown
      cases hown
  have hy := h.serves listenfd hnul henv hadvance hrunning
  obtain ⟨hfree, connfd, hfresh⟩ := hroom
  have hgo : (Select.acceptClient connfd x.server.vars).exited = none :=
    (Select.acceptClient_room hfree hfresh.1).1.trans hrunning
  have hadvance' : Select.Loop.advance ⟨x.server.vars, .accept {x.server.vars.listenfd} 1⟩
      (.accept connfd) = some (⟨Select.acceptClient connfd x.server.vars, .select⟩, [.accept]) := by
    simp [Select.Loop.advance]
  have henv' : Env { x with server := ⟨x.server.vars, .accept {x.server.vars.listenfd} 1⟩ }
      (.server (.accept connfd) true) := ⟨hfresh, fun _ => hlink⟩
  exact ⟨_, connfd, hy.trans (hy.sound.serves listenfd hnul henv' hadvance' hgo), rfl, rfl⟩

/-- The client's `read` returns what it may return, and the server stays where it is. -/
theorem read_returns (input : List UInt8) {x : Exchange} (hpc : x.client.pc = .read)
    {r : ReadResult} (hr : Returns x.toClient x.HungUp r) :
    ∃ x', (system listenfd input).Leads x x' ∧ x'.server = x.server ∧
      x'.client = x.client.read r := by
  have hstep : x.step (.client (.read r)) =
      some { x.clientCall (.read r) with client := x.client.read r } := by
    rw [Exchange.step, LineClient.step, if_pos hpc]
    rfl
  exact ⟨_, .single ⟨.client (.read r), hr, hstep⟩, rfl, rfl⟩

/-- The system can go on, with the server running to the end, until the client's `read` has
returned some bytes. -/
def Answered (listenfd : ℤ) (input : List UInt8) (x : Exchange) : Prop :=
  ∃ x' bytes, (system listenfd input).Leads x x' ∧ x'.server.vars.exited = none ∧
    (ReadResult.data bytes).Valid ∧ x'.client = x.client.read (.data bytes)

/-- Wherever a running server is, the client can get an answer. -/
theorem Sound.answered (hnul : 0 ∉ input) {x : Exchange} (h : x.Sound input)
    (hrunning : x.server.vars.exited = none) (hpc : x.client.pc = .read) :
    Answered listenfd input x := by
  have hread : ∀ y, Serves listenfd input x y → y.client.pc = .read := fun y hy => hy.client ▸ hpc
  -- It is enough that the server gets to the point where the connection is open.
  have hopened : ∀ y fd, Serves listenfd input x y → y.server.pc = .select →
      y.link = .opened fd → Answered listenfd input x := by
    intro y fd hy hpc' hlink
    obtain ⟨z, hz, hreply⟩ := answer listenfd hnul hy.sound hpc' hy.running hlink (hread y hy)
    obtain ⟨bytes, hr⟩ := exists_returns_data z.HungUp hreply
    obtain ⟨x', hlead, hserver, hclient⟩ :=
      read_returns listenfd input (hread z (hy.trans hz)) hr
    exact ⟨x', bytes, (hy.trans hz).leads.trans hlead, hserver ▸ (hy.trans hz).running, hr.1,
      (hy.trans hz).client ▸ hclient⟩
  have hclosed : ∀ y, Serves listenfd input x y → y.link ≠ .closed := fun y hy hlink =>
    not_ended_of_pc (hread y hy) nofun (hy.sound.inv.linked.closed hlink)
  obtain ⟨y, hy, hpc'⟩ := finish listenfd hnul h hrunning
  cases hlink : y.link with
  | closed => exact absurd hlink (hclosed y hy)
  | opened fd => exact hopened y fd hy hpc' hlink
  | backlog =>
    obtain ⟨z, hz, hpc'', hroom, hnone⟩ := make_room listenfd hnul hy.sound hpc' hy.running hlink
    have hz' := hy.trans hz
    cases hlink' : z.link with
    | closed => exact absurd hlink' (hclosed z hz')
    | opened fd => exact absurd hlink' (hnone fd)
    | backlog =>
      obtain ⟨w, fd, hw, hpcw, hlinkw⟩ :=
        let_in listenfd hnul hz'.sound hpc'' hz'.running hlink' hroom
      exact hopened w fd (hz'.trans hw) hpcw hlinkw

end Serving

/-! ## The exchange -/

/-- **The client prints what it has sent in upper case, in order, and is never left waiting.**
While it waits a byte is under way, and its `read` can still return; as long as `select` has not
failed it can do so with bytes of the answer, on a path on which `select` does not fail either: a
server that has exited stays so. -/
theorem exchange_in_order (listenfd : ℤ) (input : List UInt8) (hnul : 0 ∉ input)
    (h : List (Event Exchange Label)) (x : Exchange) (hrun : (system listenfd input).Run h x) :
    (∃ printed, printed <+: x.client.sent.map toupper ∧ x.client.stdout =
      printed ++ if x.client.pc = .returned 1 then LineClient.notice else []) ∧
    (x.client.pc = .returned 1 → x.server.vars.exited = some (-1)) ∧
    (x.client.pc = .read →
      0 < x.toServer.length + x.held.length + x.toClient.length ∧
        (∃ x' r, (system listenfd input).Leads x x' ∧ x'.client = x.client.read r) ∧
        (x.server.vars.exited = none → Answered listenfd input x)) := by
  have hsound := sound_of_run hnul hrun
  refine ⟨?_, fun htold => hsound.failed (hsound.inv.told htold).1,
    fun hpc => ⟨hsound.inv.in_flight hpc, ?_,
      fun hrunning => hsound.answered listenfd hnul hrunning hpc⟩⟩
  · by_cases htold : x.client.pc = .returned 1
    · obtain ⟨-, hprinted⟩ := hsound.inv.told htold
      rw [if_pos htold]
      exact hprinted
    · rw [if_neg htold]
      refine ⟨x.client.stdout, ⟨x.client.unprinted ++ x.flow, ?_⟩, (List.append_nil _).symm⟩
      rw [← List.append_assoc]
      exact hsound.inv.output htold
  · by_cases hrunning : x.server.vars.exited = none
    · obtain ⟨x', bytes, hlead, -, -, hclient⟩ := hsound.answered listenfd hnul hrunning hpc
      exact ⟨x', _, hlead, hclient⟩
    · have hready : x.toClient ≠ [] ∨ x.HungUp := .inr (.inr hrunning)
      obtain ⟨r, hr⟩ := exists_returns hready
      obtain ⟨x', hlead, -, hclient⟩ := read_returns listenfd input hpc hr
      exact ⟨x', r, hlead, hclient⟩

/-- A line has been sent, and the server is between its `read` and its `write`. -/
theorem exists_held : ∃ h x, (system 3 [97, 10]).Run h x ∧ x.client.pc = .read ∧
    x.held = [97, 10] ∧ x.toServer = [] ∧ x.toClient = [] ∧ x.server.vars.exited = none := by
  have hroom : Room (Select.start 3) :=
    ⟨fun hfull => absurd (hfull 0 (by decide)) (by decide), 5, by decide, by decide, by decide,
      by decide⟩
  have hline : (ReadResult.data [97, 10]).Valid := ⟨by decide, by decide⟩
  have hrun₁ := System.Run.step (M := system 3 [97, 10]) (System.Run.start rfl)
    (l := Label.client .fgets) ⟨trivial, rfl⟩
  have hrun₂ := hrun₁.step (l := Label.client .write) ⟨trivial, rfl⟩
  have hrun₃ := hrun₂.step (l := Label.server (.select 1 {3}) false)
    ⟨⟨fun _ => ⟨by decide, rfl⟩, fun _ => ⟨nofun, fun _ => hroom⟩⟩, rfl⟩
  have hrun₄ := hrun₃.step (l := Label.server (.accept 5) true)
    ⟨⟨⟨by decide, by decide, by decide, by decide⟩, fun _ => rfl⟩, rfl⟩
  have hrun₅ := hrun₄.step (l := Label.server (.select 1 {5}) false)
    ⟨⟨fun _ => ⟨by decide, rfl⟩, fun _ => ⟨fun _ _ _ => .inl nofun, fun hmem =>
      absurd hmem (by decide)⟩⟩, rfl⟩
  have hrun₆ := hrun₅.step (l := Label.server (.slot (.data [97, 10])) false)
    ⟨⟨fun _ _ _ _ _ => ⟨by decide, hline⟩, fun _ _ _ _ _ _ => ⟨hline, List.prefix_rfl⟩⟩, rfl⟩
  exact ⟨_, _, hrun₆, rfl, rfl, rfl, rfl, rfl⟩

/-- The server fails in `select` while the client waits for it. -/
theorem exists_told : ∃ h x, (system 3 [97, 10]).Run h x ∧
    x.client.sent = [97, 10] ∧ x.client.stdout = LineClient.notice := by
  have hrun₁ := System.Run.step (M := system 3 [97, 10]) (System.Run.start rfl)
    (l := Label.client .fgets) ⟨trivial, rfl⟩
  have hrun₂ := hrun₁.step (l := Label.client .write) ⟨trivial, rfl⟩
  have hrun₃ := hrun₂.step (l := Label.server (.select (-1) ∅) false)
    ⟨⟨fun hpos => absurd hpos (by decide), fun hpos => absurd hpos (by decide)⟩, rfl⟩
  have hrun₄ := hrun₃.step (l := Label.client (.read .eof)) ⟨⟨rfl, .inr nofun⟩, rfl⟩
  exact ⟨_, _, hrun₄, rfl, rfl⟩

/-- A line is on its way, and its reply is still to come. -/
theorem exchange_in_order_held : ∃ h x, (system 3 [97, 10]).Run h x ∧ x.held = [97, 10] ∧
    Answered 3 [97, 10] x := by
  obtain ⟨h, x, hrun, hpc, hheld, -, -, hrunning⟩ := exists_held
  obtain ⟨-, -, hanswered⟩ := (exchange_in_order 3 [97, 10] (by decide) h x hrun).2.2 hpc
  exact ⟨h, x, hrun, hheld, hanswered hrunning⟩

/-- The bytes of a request can be in neither stream, and the notice is no echo. -/
theorem byte_in_neither_stream :
    (¬ ∀ (listenfd : ℤ) (input : List UInt8) (h : List (Event Exchange Label)) (x : Exchange),
      0 ∉ input → (system listenfd input).Run h x → x.client.pc = .read →
        0 < x.toServer.length + x.toClient.length) ∧
    ¬ ∀ (listenfd : ℤ) (input : List UInt8) (h : List (Event Exchange Label)) (x : Exchange),
      0 ∉ input → (system listenfd input).Run h x →
        x.client.stdout <+: x.client.sent.map toupper := by
  constructor
  · intro hclaim
    obtain ⟨h, x, hrun, hpc, -, hto, hfrom, -⟩ := exists_held
    have hflight := hclaim 3 [97, 10] h x (by decide) hrun hpc
    rw [hto, hfrom] at hflight
    exact absurd hflight (by decide)
  · intro hclaim
    obtain ⟨h, x, hrun, hsent, hout⟩ := exists_told
    have hprefix := (hclaim 3 [97, 10] h x (by decide) hrun).length_le
    rw [hsent, hout] at hprefix
    exact absurd hprefix (by decide)

end LinuxExercise.Servers.Exchange
