import LinuxExercise.Servers.SelectService

/-!
# The `select` server, call by call

`Select.round` is one iteration of the loop of lines 44-104.  Here the iteration is cut at the
system calls, so that other programs can run in between: `select`, `accept`, the `read` of a
ready connection and the reply to it are steps of their own.  `round_steps` says that a round
is a sequence of such steps, with the same effect on the variables and the same calls.
-/

namespace LinuxExercise.Servers.Select

open SlotTable

/-! ## The steps of an iteration -/

namespace Loop

/-- Where the server is. -/
inductive Pc
  /-- Line 46, at `select`. -/
  | select
  /-- Line 55, at `accept`. -/
  | accept (rset : Finset ℤ) (nready : ℤ)
  /-- Line 82, the loop test. -/
  | scan (rset : Finset ℤ) (nready : ℤ) (i : ℕ)
  /-- Line 88, the `read` has returned. -/
  | reply (rset : Finset ℤ) (nready : ℤ) (i : ℕ) (read : ReadResult)

/-- The call that the server makes next, with what it returns. -/
inductive Label
  | select (nready : ℤ) (rset : Finset ℤ)
  | accept (connfd : ℤ)
  /-- Lines 82-88 for the next slot; `read`, if it is called, returns this. -/
  | slot (read : ReadResult)
  /-- Lines 89-101, where the connection is closed or the echo written. -/
  | reply

end Loop

/-- The server inside an iteration. -/
structure Loop where
  vars : Select
  pc : Loop.Pc

namespace Loop

/-- The server before its first iteration. -/
def start (listenfd : ℤ) : Loop := ⟨Select.start listenfd, .select⟩

/-- The server has read from a connection and not replied yet. -/
def Replying (s : Loop) : Prop := ∃ rset nready i read, s.pc = .reply rset nready i read

theorem not_replying_of_select {s : Loop} (hpc : s.pc = .select) : ¬ Replying s := by
  rintro ⟨rset, nready, i, read, hreply⟩
  exact nomatch hpc.symm.trans hreply

theorem not_replying_of_accept {s : Loop} {rset : Finset ℤ} {nready : ℤ}
    (hpc : s.pc = .accept rset nready) : ¬ Replying s := by
  rintro ⟨rset, nready, i, read, hreply⟩
  exact nomatch hpc.symm.trans hreply

theorem not_replying_of_scan {s : Loop} {rset : Finset ℤ} {nready : ℤ} {i : ℕ}
    (hpc : s.pc = .scan rset nready i) : ¬ Replying s := by
  rintro ⟨rset, nready, i, read, hreply⟩
  exact nomatch hpc.symm.trans hreply

/-- Lines 88-99 after the `read`. -/
def handle (read : ReadResult) (i : ℕ) (s : Select) : Select × Call :=
  let sockfd := s.client i
  if read.n = 0 then
    ({ s with
        allset := s.allset.erase sockfd
        client := Function.update s.client i (-1)
        connections := s.connections.erase sockfd },
      .close sockfd)
  else (s, echo sockfd read)

/-- One step of the server, with the calls it makes. -/
def advance (s : Loop) (l : Label) : Option (Loop × List Call) :=
  match s.pc, l with
  | .select, .select nready rset =>
    if s.vars.exited = none then
      if nready < 0 then some (⟨{ s.vars with exited := some (-1) }, .select⟩, [])
      else if s.vars.listenfd ∈ rset then some (⟨s.vars, .accept rset nready⟩, [])
      else some (⟨s.vars, .scan rset nready 0⟩, [])
    else none
  | .accept rset nready, .accept connfd =>
    let vars := acceptClient connfd s.vars
    if vars.exited.isSome ∨ nready - 1 = 0 then some (⟨vars, .select⟩, [.accept])
    else some (⟨vars, .scan rset (nready - 1) 0⟩, [.accept])
  | .scan rset nready i, .slot read =>
    if (i : ℤ) ≤ s.vars.maxi then
      if ready rset s.vars i then
        some (⟨s.vars, .reply rset nready i read⟩, [.read (s.vars.client i)])
      else some (⟨s.vars, .scan rset nready (i + 1)⟩, [])
    else some (⟨s.vars, .select⟩, [])
  | .reply rset nready i read, .reply =>
    let r := handle read i s.vars
    if nready - 1 = 0 then some (⟨r.1, .select⟩, [r.2])
    else some (⟨r.1, .scan rset (nready - 1) (i + 1)⟩, [r.2])
  | _, _ => none

/-- Several steps. -/
def exec (s : Loop) : List Label → Option (Loop × List Call)
  | [] => some (s, [])
  | l :: ls =>
    match advance s l with
    | none => none
    | some (s', calls) => (exec s' ls).map fun r => (r.1, calls ++ r.2)

/-- The inversion of `advance`: one case for each call, and one for a slot that is not served. -/
inductive Stepped (s : Loop) : Label → Loop → List Call → Prop
  | fail {nready : ℤ} {rset : Finset ℤ} : s.pc = .select → s.vars.exited = none →
      Stepped s (.select nready rset) ⟨{ s.vars with exited := some (-1) }, .select⟩ []
  | select {nready : ℤ} {rset : Finset ℤ} {pc : Pc} : s.pc = .select → s.vars.exited = none →
      0 ≤ nready → (s.vars.listenfd ∈ rset ∧ pc = .accept rset nready ∨
        s.vars.listenfd ∉ rset ∧ pc = .scan rset nready 0) →
      Stepped s (.select nready rset) ⟨s.vars, pc⟩ []
  | accept {rset : Finset ℤ} {nready connfd : ℤ} {pc : Pc} : s.pc = .accept rset nready →
      (pc = .select ∨ (acceptClient connfd s.vars).exited = none ∧
        pc = .scan rset (nready - 1) 0) →
      Stepped s (.accept connfd) ⟨acceptClient connfd s.vars, pc⟩ [.accept]
  | skip {rset : Finset ℤ} {nready : ℤ} {i : ℕ} {read : ReadResult} {pc : Pc} :
      s.pc = .scan rset nready i → (pc = .select ∨ pc = .scan rset nready (i + 1)) →
      Stepped s (.slot read) ⟨s.vars, pc⟩ []
  | read {rset : Finset ℤ} {nready : ℤ} {i : ℕ} {read : ReadResult} :
      s.pc = .scan rset nready i → ready rset s.vars i = true →
      Stepped s (.slot read) ⟨s.vars, .reply rset nready i read⟩ [.read (s.vars.client i)]
  | reply {rset : Finset ℤ} {nready : ℤ} {i : ℕ} {read : ReadResult} {pc : Pc} :
      s.pc = .reply rset nready i read → (pc = .select ∨ pc = .scan rset (nready - 1) (i + 1)) →
      Stepped s .reply ⟨(handle read i s.vars).1, pc⟩ [(handle read i s.vars).2]

theorem stepped_of_advance {s s' : Loop} {l : Label} {calls : List Call}
    (h : advance s l = some (s', calls)) : Stepped s l s' calls := by
  unfold advance at h
  split at h
  · next nready rset hpc =>
    split at h
    · next hrunning =>
      split at h
      · cases h
        exact .fail hpc hrunning
      · next hpos =>
        split at h
        · next hlisten =>
          cases h
          exact .select hpc hrunning (not_lt.mp hpos) (.inl ⟨hlisten, rfl⟩)
        · next hlisten =>
          cases h
          exact .select hpc hrunning (not_lt.mp hpos) (.inr ⟨hlisten, rfl⟩)
    · cases h
  · next rset nready connfd hpc =>
    simp only at h
    split at h
    · cases h
      exact .accept hpc (.inl rfl)
    · next hmore =>
      cases h
      rw [not_or, Bool.not_eq_true, Option.isSome_eq_false_iff, Option.isNone_iff_eq_none] at hmore
      exact .accept hpc (.inr ⟨hmore.1, rfl⟩)
  · next rset nready i read hpc =>
    split at h
    · split at h
      · next hready =>
        cases h
        exact .read hpc hready
      · cases h
        exact .skip hpc (.inr rfl)
    · cases h
      exact .skip hpc (.inl rfl)
  · next rset nready i read hpc =>
    simp only at h
    split at h <;> cases h
    · exact .reply hpc (.inl rfl)
    · exact .reply hpc (.inr rfl)
  · cases h

/-! ## A round is a sequence of steps -/

/-- A service is a `read` and what comes after it. -/
theorem serveClient_eq (read : ℕ → ReadResult) (i : ℕ) (s : Select) :
    serveClient read i s =
      ((handle (read i) i s).1, [.read (s.client i), (handle (read i) i s).2]) := by
  unfold serveClient handle
  simp only
  split <;> rfl

theorem handle_call (read : ReadResult) (i : ℕ) (s : Select) :
    (handle read i s).2 = if read.n = 0 then .close (s.client i) else echo (s.client i) read := by
  unfold handle
  simp only
  split <;> rfl

theorem handle_maxi (read : ReadResult) (i : ℕ) (s : Select) :
    (handle read i s).1.maxi = s.maxi := by
  unfold handle
  simp only
  split <;> rfl

/-- The scan from slot `i` on, with `n` slots to go. -/
theorem scan_steps (rset : Finset ℤ) (read : ℕ → ReadResult) (n i : ℕ) (nready : ℤ) (s : Select)
    (hn : (s.maxi + 1).toNat = i + n) :
    ∃ ls, exec ⟨s, .scan rset nready i⟩ ls =
      some (⟨(scan (ready rset) (serveClient read) (fun _ => false) n i nready s).1, .select⟩,
        (scan (ready rset) (serveClient read) (fun _ => false) n i nready s).2) := by
  induction n generalizing i nready s with
  | zero =>
    have hend : ¬ (i : ℤ) ≤ s.maxi := by omega
    exact ⟨[.slot .eof], by simp [exec, advance, hend, scan]⟩
  | succ n ih =>
    have hmore : (i : ℤ) ≤ s.maxi := by omega
    unfold scan
    by_cases hready : ready rset s i = true
    · have hserve := serveClient_eq read i s
      have hmaxi : ((handle (read i) i s).1.maxi + 1).toNat = i + 1 + n := by
        rw [handle_maxi]
        omega
      rw [if_pos hready, hserve]
      by_cases hlast : nready - 1 = 0
      · refine ⟨[.slot (read i), .reply], ?_⟩
        simp [exec, advance, hmore, hready, hlast]
      · obtain ⟨ls, hls⟩ := ih (i + 1) (nready - 1) (handle (read i) i s).1 hmaxi
        refine ⟨.slot (read i) :: .reply :: ls, ?_⟩
        simp [exec, advance, hmore, hready, hlast, hls]
    · obtain ⟨ls, hls⟩ := ih (i + 1) nready s (by omega)
      refine ⟨.slot .eof :: ls, ?_⟩
      simp [exec, advance, hmore, hready, hls]

/-- **A round of the server is a sequence of its steps.** -/
theorem round_steps (r : Round) (s : Select) (hrunning : s.exited = none) :
    ∃ ls, exec ⟨s, .select⟩ ls = some (⟨(round r s).1, .select⟩, (round r s).2) := by
  unfold Select.round
  by_cases hfail : r.nready < 0
  · exact ⟨[.select r.nready r.rset], by simp [exec, advance, hrunning, hfail]⟩
  rw [if_neg hfail]
  by_cases hlisten : s.listenfd ∈ r.rset
  · rw [if_pos hlisten]
    by_cases hlast : (acceptClient r.connfd s).exited.isSome ∨ r.nready - 1 = 0
    · refine ⟨[.select r.nready r.rset, .accept r.connfd], ?_⟩
      simp only [exec, advance, hrunning, hfail, hlisten, hlast, if_true, if_false]
      rfl
    · obtain ⟨ls, hls⟩ := scan_steps r.rset r.read _ 0 (r.nready - 1)
        (acceptClient r.connfd s) (Nat.zero_add _).symm
      refine ⟨.select r.nready r.rset :: .accept r.connfd :: ls, ?_⟩
      simp only [exec, advance, hrunning, hfail, hlisten, hlast, if_true, if_false, hls]
      rfl
  · rw [if_neg hlisten]
    obtain ⟨ls, hls⟩ := scan_steps r.rset r.read _ 0 r.nready s (Nat.zero_add _).symm
    refine ⟨.select r.nready r.rset :: ls, ?_⟩
    simp only [exec, advance, hrunning, hfail, hlisten, if_true, if_false, hls]
    rfl

/-! ## The invariant inside a round -/

/-- What the kernel promises: `select` reports a subset of `allset` and its size, or fails;
`accept` returns a descriptor that is not open and below `FD_SETSIZE`; a `read` of an open
connection returns `0` or what fits `buf`. -/
def Env (s : Loop) : Label → Prop
  | .select nready rset => 0 ≤ nready → rset ⊆ s.vars.allset ∧ nready = rset.card
  | .accept connfd => 0 ≤ connfd ∧ connfd < fdSetSize ∧ connfd ≠ s.vars.listenfd ∧
      connfd ∉ s.vars.connections
  | .slot read => ∀ rset nready i, s.pc = .scan rset nready i →
      s.vars.client i ∈ s.vars.connections → 0 ≤ read.n ∧ read.Valid
  | .reply => True

/-- The records of the connections agree while the server is running, and the connection that
is being served is one of them. -/
structure Inv (s : Loop) : Prop where
  vars : s.vars.exited = none → SelectInv s.vars
  running : s.vars.exited ≠ none → s.pc = .select
  served : ∀ rset nready i read, s.pc = .reply rset nready i read →
    s.vars.client i ∈ s.vars.connections ∧ 0 ≤ read.n ∧ read.Valid

theorem start_inv (listenfd : ℤ) : Inv (start listenfd) where
  vars _ := Select.start_inv listenfd
  running hexit := absurd rfl hexit
  served := by simp [start]

theorem handle_inv {s : Select} (h : SelectInv s) {read : ReadResult} {i : ℕ}
    (hi : ¬ s.client i < 0) : SelectInv (handle read i s).1 := by
  have hserve : SelectInv (serveClient (fun _ => read) i s).1 := h.serveClient hi
  rwa [serveClient_eq] at hserve

theorem handle_exited (read : ReadResult) (i : ℕ) (s : Select) :
    (handle read i s).1.exited = s.exited := by
  unfold handle
  simp only
  split <;> rfl

/-- Inside a round the server is running. -/
theorem Inv.exited_eq {s : Loop} (h : Inv s) {pc : Pc} (hpc : s.pc = pc) (hne : pc ≠ .select) :
    s.vars.exited = none := by
  by_contra hexit
  exact hne (hpc.symm.trans (h.running hexit))

theorem Inv.advance {s s' : Loop} {l : Label} {calls : List Call} (h : Inv s)
    (henv : Env s l) (hstep : advance s l = some (s', calls)) : Inv s' := by
  have hvars := h.vars
  cases stepped_of_advance hstep with
  | fail => exact ⟨nofun, fun _ => rfl, nofun⟩
  | select _ hexit _ hpc =>
    refine ⟨hvars, fun hne => absurd hexit hne, ?_⟩
    rcases hpc with ⟨-, rfl⟩ | ⟨-, rfl⟩ <;> exact nofun
  | @accept rset nready connfd pc hpc hnext =>
    obtain ⟨hpos, -, hne, hnew⟩ := henv
    have hinv := hvars (h.exited_eq hpc nofun)
    refine ⟨hinv.acceptClient hpos hnew hne, fun hexit => ?_, ?_⟩
    · rcases hnext with rfl | ⟨hgo, -⟩
      · rfl
      · exact absurd hgo hexit
    · rcases hnext with rfl | ⟨-, rfl⟩ <;> exact nofun
  | skip hpc hnext =>
    have hexit := h.exited_eq hpc nofun
    refine ⟨hvars, fun hne => absurd hexit hne, ?_⟩
    rcases hnext with rfl | rfl <;> exact nofun
  | @read rset nready i read hpc hready =>
    have hexit := h.exited_eq hpc nofun
    refine ⟨hvars, fun hne => absurd hexit hne, fun rset' nready' j read' heq => ?_⟩
    obtain ⟨-, -, rfl, rfl⟩ := Pc.reply.inj heq
    have hocc : ¬ vacant (s.vars.client i) := (of_decide_eq_true hready).1
    have hmem : s.vars.client i ∈ s.vars.connections :=
      ((hvars hexit).table.mem_iff _).2 ⟨hocc, i, rfl⟩
    exact ⟨hmem, henv rset nready i hpc hmem⟩
  | @reply rset nready i read pc hpc hnext =>
    have hexit := h.exited_eq hpc nofun
    have hinv := hvars hexit
    have hslot : ¬ s.vars.client i < 0 :=
      ((hinv.table.mem_iff _).1 (h.served rset nready i read hpc).1).1
    refine ⟨fun _ => handle_inv hinv hslot, fun hne => ?_, ?_⟩
    · rw [handle_exited] at hne
      exact absurd hexit hne
    · rcases hnext with rfl | rfl <;> exact nofun

end Loop

end LinuxExercise.Servers.Select
