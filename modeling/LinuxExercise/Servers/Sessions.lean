import LinuxExercise.Servers.Kernel

/-!
# What an echo server does to its connections

A connection is more than its descriptor: a descriptor is used again after it has been closed.
`Sessions` is the record of all connections a server has ever had, kept by an observer of its
system calls: which connection each descriptor stands for, what has been read from it and
written to it, whether its end of file was read and whether it was closed.

`Echoes` is the specification the servers share, and `Echoes.service` says that it is kept by
what each of them does for a ready connection, whichever way it got there.
-/

namespace LinuxExercise.Servers

/-- What has happened on a connection. -/
structure Session where
  /-- The bytes read from it. -/
  input : List UInt8
  /-- The bytes written to it. -/
  output : List UInt8
  /-- A `read` of it has returned end of file. -/
  ended : Bool
  closed : Bool

/-- A connection nothing has happened on. -/
def Session.fresh : Session := ⟨[], [], false, false⟩

/-- A `read` of the connection returns. -/
def Session.receive (x : Session) : ReadResult → Session
  | .data bytes => { x with input := x.input ++ bytes }
  | .eof => { x with ended := true }
  | .error _ => x

/-- The connection has been sent the upper-case of what was read from it, and it was closed if
and only if its end of file was read. -/
structure Session.Echoed (x : Session) : Prop where
  output : x.output = x.input.map toupper
  closed : x.closed = x.ended

/-- The connections of a server, by descriptor and by identity. -/
structure Sessions (κ : Type*) where
  /-- The connection that an open descriptor stands for. -/
  owner : ℤ → Option κ
  session : κ → Session

namespace Sessions

variable {κ : Type*}

/-- Before the first `accept`. -/
def empty : Sessions κ := ⟨fun _ => none, fun _ => .fresh⟩

/-- The connection has not been accepted yet. -/
def Fresh (S : Sessions κ) (c : κ) : Prop :=
  (∀ fd, S.owner fd ≠ some c) ∧ (S.session c).closed = false

/-- Every connection is as it should be. -/
def Echoes (S : Sessions κ) : Prop := ∀ c, (S.session c).Echoed

theorem empty_echoes : (empty : Sessions κ).Echoes := fun _ => ⟨rfl, rfl⟩

theorem empty_fresh (c : κ) : (empty : Sessions κ).Fresh c := ⟨nofun, rfl⟩

variable [DecidableEq κ]

/-- Something happens on the connection behind `fd`. -/
def modify (S : Sessions κ) (fd : ℤ) (f : Session → Session) : Sessions κ :=
  match S.owner fd with
  | none => S
  | some c => { S with session := Function.update S.session c (f (S.session c)) }

/-- A call of the server: `accept` takes the connection `c` and returns `connfd`, and `read`
returns `r`. -/
def call (c : κ) (connfd : ℤ) (r : ReadResult) (S : Sessions κ) : Call → Sessions κ
  | .accept => { S with owner := Function.update S.owner connfd (some c) }
  | .read fd => S.modify fd fun x => x.receive r
  | .write fd buf count => S.modify fd fun x => { x with output := x.output ++ buf.take count }
  | .close fd =>
    { S.modify fd fun x => { x with closed := true } with
      owner := Function.update S.owner fd none }

/-- Several calls. -/
def calls (c : κ) (connfd : ℤ) (r : ReadResult) (S : Sessions κ) (cs : List Call) : Sessions κ :=
  cs.foldl (call c connfd r) S

@[simp] theorem modify_owner (S : Sessions κ) (fd : ℤ) (f : Session → Session) :
    (S.modify fd f).owner = S.owner := by
  unfold modify
  split <;> rfl

/-- What happens on the connection behind a descriptor happens on no other. -/
theorem modify_session (S : Sessions κ) (fd : ℤ) (f : Session → Session) (c : κ) :
    (S.modify fd f).session c =
      if S.owner fd = some c then f (S.session c) else S.session c := by
  unfold modify
  split
  · next hnone => rw [if_neg (by rw [hnone]; nofun)]
  · next c' hsome =>
    by_cases hc : c = c'
    · subst hc
      rw [if_pos hsome]
      exact Function.update_self ..
    · rw [if_neg (by rw [hsome]; exact fun heq => hc (Option.some.inj heq).symm)]
      exact Function.update_of_ne hc ..

theorem Echoes.accept {S : Sessions κ} (h : S.Echoes) (c : κ) (connfd : ℤ) (r : ReadResult) :
    (S.call c connfd r .accept).Echoes := h

/-- One connection is accepted, and another one is not. -/
theorem Fresh.accept {S : Sessions κ} {c c' : κ} (h : S.Fresh c') (hne : c ≠ c') (connfd : ℤ)
    (r : ReadResult) : (S.call c connfd r .accept).Fresh c' := by
  refine ⟨fun fd => ?_, h.2⟩
  by_cases hfd : fd = connfd
  · simpa [call, hfd] using hne
  · simpa [call, hfd] using h.1 fd

/-- A service: what was read is echoed, or the connection closed at its end of file. -/
theorem Echoes.service {S : Sessions κ} (h : S.Echoes) {r : ReadResult} (hn : 0 ≤ r.n)
    (hvalid : r.Valid) (r' : ReadResult) (fd : ℤ) (c c' : κ) (connfd connfd' : ℤ) :
    ((S.call c connfd r (.read fd)).call c' connfd' r'
      (if r.n = 0 then .close fd else echo fd r)).Echoes := by
  intro x
  obtain ⟨houtput, hclosed⟩ := h x
  cases r with
  | eof =>
    have hcall : (if ReadResult.eof.n = 0 then Call.close fd else echo fd .eof) = .close fd :=
      if_pos rfl
    rw [hcall]
    simp only [call, modify_session, modify_owner]
    by_cases howner : S.owner fd = some x
    · rw [if_pos howner, if_pos howner]
      exact ⟨houtput, rfl⟩
    · rw [if_neg howner, if_neg howner]
      exact ⟨houtput, hclosed⟩
  | data bytes =>
    obtain ⟨buf, count, hecho, htake⟩ := echo_data hvalid fd
    rw [if_neg (data_n_ne_zero hvalid), hecho]
    simp only [call, modify_session, modify_owner]
    by_cases howner : S.owner fd = some x
    · rw [if_pos howner, if_pos howner, htake]
      refine ⟨?_, hclosed⟩
      show (S.session x).output ++ _ = ((S.session x).input ++ bytes).map toupper
      rw [houtput, List.map_append]
    · rw [if_neg howner, if_neg howner]
      exact ⟨houtput, hclosed⟩
  | error e => exact absurd hn (by simp [ReadResult.n])

/-- Closing a descriptor again does nothing. -/
theorem calls_close (S : Sessions κ) (c : κ) (connfd : ℤ) (r : ReadResult) (fd : ℤ) (n : ℕ) :
    S.calls c connfd r (List.replicate (n + 1) (.close fd)) = S.call c connfd r (.close fd) := by
  induction n generalizing S with
  | zero => rfl
  | succ n ih =>
    have hagain : (S.call c connfd r (.close fd)).call c connfd r (.close fd) =
        S.call c connfd r (.close fd) := by
      have hnone : (S.call c connfd r (.close fd)).owner fd = none := Function.update_self ..
      generalize hS : S.call c connfd r (.close fd) = T at hnone
      have hmodify : T.modify fd (fun x => { x with closed := true }) = T := by
        unfold modify
        rw [hnone]
      rw [call, hmodify, ← hnone, Function.update_eq_self]
    rw [List.replicate_succ]
    exact (ih (S.call c connfd r (.close fd))).trans hagain

end Sessions

/-- A server with the record of its connections. -/
structure Observed (σ κ : Type*) where
  server : σ
  sessions : Sessions κ

end LinuxExercise.Servers
