import LinuxExercise.Network.ForkServer

/-!
# The session of a child of the forking server

A child reads, converts and writes in a loop that it never leaves: `readlen` bounds the
conversion and is passed on to `write`, but nothing tests whether the client has gone.  As long
as `read` returns bytes that is an echo; `child_session_iff` says that it is a session only so
long: afterwards the child does not come to the `close` of line 65, however many steps it takes.
-/

namespace LinuxExercise.Network.Fork

open Servers

/-! ## What a log says -/

/-- What the reads returned, in order. -/
def reads (log : List Op) : List ReadResult :=
  log.filterMap fun
    | .read r => some r
    | _ => none

/-- The bytes that the writes sent, in order; a `write` sends all it is given. -/
def written (log : List Op) : List UInt8 :=
  log.flatMap fun
    | .write buf count => buf.take count
    | _ => []

/-- The bytes that a `read` stored. -/
def bytesOf : ReadResult → List UInt8
  | .data bytes => bytes
  | _ => []

/-- What is to be written: the bytes that were read, in upper case. -/
def due (log : List Op) : List UInt8 := ((reads log).flatMap bytesOf).map toupper

/-- The child after further steps of its own, for which `read` would return these results. -/
def Child.steps (rs : List ReadResult) (c : Child) : Child := rs.foldl (fun c r => c.step r) c

/-- The bytes that are due are written in order, all of them before the next `read`; after the
first `read` that returns `0` or `-1` nothing is done on the connection but to close it, and that
is done after some number of steps. -/
structure SessionOk (c : Child) : Prop where
  echoes : written c.log <+: due c.log
  complete : c.pc = .read → written c.log = due c.log
  ends : ∀ before r after, c.log = before ++ .read r :: after → r.n ≤ 0 → after <+: [.close]
  closes : (∃ r ∈ reads c.log, r.n ≤ 0) →
    ∃ n, ∀ rs : List ReadResult, rs.length = n → (∀ r ∈ rs, Fits r = true) →
      .close ∈ (c.steps rs).log

/-- The calls of as many iterations as `read` has returned results. -/
def session (rs : List ReadResult) : List Op := rs.flatMap fun r => [.read r, answer r]

theorem session_append (rs rs' : List ReadResult) :
    session (rs ++ rs') = session rs ++ session rs' :=
  List.flatMap_append

theorem reads_session (rs : List ReadResult) : reads (session rs) = rs := by
  induction rs with
  | nil => rfl
  | cons r rs ih => exact congrArg (r :: ·) ih

/-- The bytes due after some iterations and a further `read`. -/
theorem due_snoc (rs : List ReadResult) (r : ReadResult) :
    due (session rs ++ [.read r]) = due (session rs) ++ (bytesOf r).map toupper := by
  have hreads : reads (session rs ++ [.read r]) = rs ++ [r] := by
    rw [reads, List.filterMap_append]
    exact congrArg (· ++ [r]) (reads_session rs)
  rw [due, due, hreads, reads_session, List.flatMap_append, List.map_append,
    List.flatMap_singleton]

/-- A `read` that returns bytes is echoed. -/
theorem written_answer {r : ReadResult} (hfits : Fits r = true) (hpos : 0 < r.n) :
    written [answer r] = (bytesOf r).map toupper := by
  cases r with
  | data bytes =>
    obtain ⟨-, hlen⟩ := of_decide_eq_true hfits
    have hsize : sizeT bytes.length = bytes.length := by
      unfold sizeT
      unfold bufSize at hlen
      omega
    have hwritten : written [answer (.data bytes)] =
        (upperLoop bytes.length (readBuf (.data bytes))).take (sizeT bytes.length) :=
      List.append_nil _
    rw [hwritten, hsize, readBuf, take_padded hlen]
    exact take_upperLoop bytes _
  | eof => exact absurd hpos (lt_irrefl 0)
  | error e => exact absurd hpos (by simp [ReadResult.n])

/-- As long as `read` returns bytes the session is an echo. -/
theorem written_session {rs : List ReadResult} (hfits : ∀ r ∈ rs, Fits r = true)
    (hpos : ∀ r ∈ rs, 0 < r.n) : written (session rs) = due (session rs) := by
  rw [due, reads_session]
  induction rs with
  | nil => rfl
  | cons r rs ih =>
    rw [List.forall_mem_cons] at hfits hpos
    have hsplit : written (session (r :: rs)) = written [answer r] ++ written (session rs) := by
      simp [written, session]
    rw [hsplit, written_answer hfits.1 hpos.1, ih hfits.2 hpos.2, List.flatMap_cons,
      List.map_append]

/-! ## The children -/

/-- The child has made the calls of some iterations, and those of the next one up to where
it is. -/
def Child.Inv (c : Child) : Prop :=
  ∃ rs, (∀ r ∈ rs, Fits r = true) ∧
    match c.pc with
    | .closeSockfd => rs = [] ∧ c.log = []
    | .read => c.log = session rs
    | .write r => Fits r = true ∧ c.log = session rs ++ [.read r]

theorem Child.Inv.step {c : Child} (h : c.Inv) {r : ReadResult} (hr : Fits r = true) :
    (c.step r).Inv := by
  obtain ⟨rs, hfits, hlog⟩ := h
  unfold Child.step
  cases hpc : c.pc with
  | closeSockfd =>
    rw [hpc] at hlog
    exact ⟨[], fun r hr => absurd hr List.not_mem_nil, hlog.2⟩
  | read =>
    rw [hpc] at hlog
    exact ⟨rs, hfits, hr, congrArg (· ++ _) hlog⟩
  | write r' =>
    rw [hpc] at hlog
    refine ⟨rs ++ [r'], ?_, ?_⟩
    · rw [List.forall_mem_append, List.forall_mem_singleton]
      exact ⟨hfits, hlog.1⟩
    · show c.log ++ [answer r'] = session (rs ++ [r'])
      rw [hlog.2, session_append, List.append_assoc]
      rfl

/-- However many steps a child takes, it does not close its connection. -/
theorem Child.Inv.close_notMem {c : Child} (h : c.Inv) {rs : List ReadResult}
    (hfits : ∀ r ∈ rs, Fits r = true) : .close ∉ (c.steps rs).log := by
  induction rs generalizing c with
  | nil =>
    obtain ⟨rs, -, hlog⟩ := h
    have hsession : .close ∉ session rs := by simp [session, answer]
    show .close ∉ c.log
    cases hpc : c.pc with
    | closeSockfd =>
      rw [hpc] at hlog
      rw [hlog.2]
      exact List.not_mem_nil
    | read =>
      rw [hpc] at hlog
      rwa [hlog]
    | write r =>
      rw [hpc] at hlog
      rw [hlog.2]
      simpa using hsession
  | cons r rs ih =>
    rw [List.forall_mem_cons] at hfits
    exact ih (h.step hfits.1) hfits.2

theorem child_inv_of_run {h : List (Event Fork Label)} {s : Fork} (hrun : server.Run h s) :
    ∀ c ∈ s.children, c.Inv := by
  refine hrun.invariant (I := fun s => ∀ c ∈ s.children, c.Inv) ?_ ?_
  · rintro s rfl c hc
    exact absurd hc List.not_mem_nil
  · intro s l s' _ hstep hinv
    obtain ⟨ok, -, -, rfl⟩ | ⟨ok, -, -, rfl⟩ | ⟨r, op, pc, -, -, rfl⟩ |
      ⟨i, r, c, -, hr, hc, rfl⟩ := next_cases hstep
    · exact hinv
    · intro c hc
      cases ok with
      | true =>
        rcases List.mem_append.mp hc with hold | hnew
        · exact hinv c hold
        · obtain rfl := List.mem_singleton.mp hnew
          exact ⟨[], fun r hr => absurd hr List.not_mem_nil, rfl, rfl⟩
      | false => exact hinv c hc
    · exact hinv
    · intro c' hc'
      rcases List.mem_or_eq_of_mem_set hc' with hold | rfl
      · exact hinv c' hold
      · exact (hinv c (List.mem_of_getElem? hc)).step hr

/-- As long as `read` returns bytes the child keeps to its session. -/
theorem Child.Inv.sessionOk {c : Child} (h : c.Inv) (hpos : ∀ r ∈ reads c.log, 0 < r.n) :
    SessionOk c := by
  obtain ⟨rs, hfits, hlog⟩ := h
  have hends : ∀ before r after, c.log = before ++ .read r :: after → r.n ≤ 0 →
      after <+: [.close] := by
    intro before r after heq hend
    have hmem : r ∈ reads c.log := by
      rw [heq]
      simp [reads]
    exact absurd (hpos r hmem) (not_lt.mpr hend)
  have hcloses : (∃ r ∈ reads c.log, r.n ≤ 0) → ∃ n, ∀ rs : List ReadResult, rs.length = n →
      (∀ r ∈ rs, Fits r = true) → .close ∈ (c.steps rs).log := by
    rintro ⟨r, hmem, hend⟩
    exact absurd (hpos r hmem) (not_lt.mpr hend)
  cases hpc : c.pc with
  | closeSockfd =>
    rw [hpc] at hlog
    refine ⟨?_, fun hread => absurd (hpc.symm.trans hread) (by simp), hends, hcloses⟩
    rw [hlog.2]
    exact List.prefix_rfl
  | read =>
    rw [hpc] at hlog
    rw [hlog, reads_session] at hpos
    have hwritten : written c.log = due c.log := by
      rw [hlog]
      exact written_session hfits hpos
    exact ⟨by rw [hwritten], fun _ => hwritten, hends, hcloses⟩
  | write r =>
    rw [hpc] at hlog
    refine ⟨?_, fun hread => absurd (hpc.symm.trans hread) (by simp), hends, hcloses⟩
    have hreads : ∀ r ∈ rs, 0 < r.n := by
      intro r hr
      apply hpos
      rw [hlog.2, reads, List.filterMap_append]
      exact List.mem_append_left _ (by rw [← reads, reads_session]; exact hr)
    have hwritten : written (session rs ++ [.read r]) = written (session rs) := by
      simp [written]
    rw [hlog.2, due_snoc, hwritten, written_session hfits hreads]
    exact List.prefix_append _ _

/-- A child that has read `0` or `-1` never ends its session. -/
theorem Child.Inv.reads_pos {c : Child} (h : c.Inv) (hok : SessionOk c) :
    ∀ r ∈ reads c.log, 0 < r.n := by
  intro r hr
  by_contra hneg
  obtain ⟨n, hclose⟩ := hok.closes ⟨r, hr, not_lt.mp hneg⟩
  have hfits : ∀ r ∈ List.replicate n ReadResult.eof, Fits r = true := by
    intro r hr
    rw [List.eq_of_mem_replicate hr]
    rfl
  exact h.close_notMem hfits (hclose _ (List.length_replicate ..) hfits)

/-- **A child keeps to its session as long as no `read` has returned `0` or `-1`**, and no
longer. -/
theorem child_session_iff (h : List (Event Fork Label)) (s : Fork) (hrun : server.Run h s)
    (c : Child) (hc : c ∈ s.children) : SessionOk c ↔ ∀ r ∈ reads c.log, 0 < r.n := by
  have hinv := child_inv_of_run hrun c hc
  exact ⟨hinv.reads_pos, hinv.sessionOk⟩

/-- A child echoes a byte. -/
theorem child_session_one_byte : ∃ h s c, server.Run h s ∧ c ∈ s.children ∧
    c.pc = .read ∧ reads c.log = [.data [97]] ∧ SessionOk c := by
  obtain ⟨h, s, hrun, htest⟩ := System.exists_run_of_exec start next
    [.accept true, .fork true, .child 0 .eof, .child 0 (.data [97]), .child 0 .eof]
    (fun _ s => s.children.any fun c => decide (c.pc = .read ∧ reads c.log = [.data [97]]))
    (by decide)
  obtain ⟨c, hc, hchild⟩ := List.any_eq_true.mp htest
  obtain ⟨hpc, hreads⟩ := of_decide_eq_true hchild
  refine ⟨h, s, c, hrun, hc, hpc, hreads, (child_session_iff h s hrun c hc).2 ?_⟩
  rw [hreads]
  decide

/-- The client hangs up, and the child writes nothing and is about to read again. -/
theorem child_never_ends : ¬ ∀ (h : List (Event Fork Label)) (s : Fork), server.Run h s →
    ∀ c ∈ s.children, SessionOk c := by
  intro hclaim
  obtain ⟨h, s, hrun, htest⟩ := System.exists_run_of_exec start next
    [.accept true, .fork true, .child 0 .eof, .child 0 .eof, .child 0 .eof]
    (fun _ s => s.children.any fun c => decide (c.pc = .read ∧ reads c.log = [.eof]))
    (by decide)
  obtain ⟨c, hc, hchild⟩ := List.any_eq_true.mp htest
  obtain ⟨hpc, hreads⟩ := of_decide_eq_true hchild
  obtain ⟨rs, -, hsession⟩ := child_inv_of_run hrun c hc
  rw [hpc] at hsession
  have hlog : c.log = [.read .eof, answer .eof] := by
    rw [hsession, reads_session] at hreads
    rw [hsession, hreads]
    rfl
  have hafter := (hclaim h s hrun c hc).ends [] .eof [answer .eof] hlog le_rfl
  have hwrite : answer .eof ∈ [Op.close] := hafter.subset (List.mem_singleton_self _)
  cases List.mem_singleton.mp hwrite

end LinuxExercise.Network.Fork
