import LinuxExercise.Framework.CString
import LinuxExercise.Framework.Memory
import Mathlib.Data.UInt

/-!
# Connecting over a UNIX-domain socket (`012_network_IO/05unix_socket_domain/src`)

`serv_listen` and `serv_accept` of `server.c` and `cli_conn` of `client.c` acquire a descriptor
and, all but `serv_accept`, a name in the file system; at the first call that fails they go to
`errout`, which closes the descriptor and keeps `errno`.  It does not remove the name, although
`bind` may have succeeded by then.

A helper is a function of what its calls return.  Its result lists the calls that it made, each
with the value of `errno` after it, and what they leave behind is read off that list.
-/

namespace LinuxExercise.Network.Unix

/-- A path, without the terminator. -/
abbrev Path := List UInt8

/-- What `stat` tells of a file, as far as it is used. -/
structure Stat where
  /-- `S_ISSOCK(st_mode)`. -/
  isSock : Bool
  uid : ℕ
  deriving DecidableEq, Repr

/-- A system call, with its result. -/
inductive Call
  | socket (fd : Option ℤ)
  | accept (fd : Option ℤ)
  | bind (path : Path) (ok : Bool)
  | listen (ok : Bool)
  | connect (path : Path) (ok : Bool)
  | stat (path : Path) (statbuf : Option Stat)
  | unlink (path : Path) (ok : Bool)
  | close (fd : ℤ) (ok : Bool)
  deriving DecidableEq, Repr

/-- What a call returns, `none` for `-1`, and the value of `errno` after it. -/
structure Reply (α : Type) where
  value : Option α
  errno : ℤ
  deriving DecidableEq, Repr

/-- What a helper returns, the value of `errno` then, and the calls that it made, each with the
value of `errno` after it. -/
structure Return where
  rval : ℤ
  errno : ℤ
  calls : List (Call × ℤ)
  deriving DecidableEq, Repr

/-- `errno` after some calls. -/
def lastErrno (calls : List (Call × ℤ)) : ℤ := (calls.getLast?.map Prod.snd).getD 0

/-- Return without passing through `errout`. -/
def ret (rval : ℤ) (calls : List (Call × ℤ)) : Return := ⟨rval, lastErrno calls, calls⟩

/-- `errout`: `err = errno; close(fd); errno = err; return(rval);`. -/
def errout (rval fd : ℤ) (close : Reply Unit) (calls : List (Call × ℤ)) : Return where
  rval := rval
  errno := lastErrno calls
  calls := calls ++ [(.close fd close.value.isSome, close.errno)]

/-! ## The helpers -/

/-- What the calls of `serv_listen` return. -/
structure ListenEnv where
  socket : Reply ℤ
  unlink : Reply Unit
  bind : Reply Unit
  listen : Reply Unit
  close : Reply Unit

/-- `serv_listen`. -/
def servListen (env : ListenEnv) (name : Path) : Return :=
  let calls := [(Call.socket env.socket.value, env.socket.errno)]
  match env.socket.value with
  | none => ret (-1) calls
  | some fd =>
    let calls := calls ++ [(.unlink name env.unlink.value.isSome, env.unlink.errno),
      (.bind name env.bind.value.isSome, env.bind.errno)]
    if env.bind.value = none then errout (-2) fd env.close calls
    else
      let calls := calls ++ [(.listen env.listen.value.isSome, env.listen.errno)]
      if env.listen.value = none then errout (-3) fd env.close calls else ret fd calls

/-- What the calls of `cli_conn` return. -/
structure ConnEnv where
  pid : ℕ
  socket : Reply ℤ
  unlink : Reply Unit
  bind : Reply Unit
  connect : Reply Unit
  close : Reply Unit

/-- `CLI_PATH`. -/
def cliPath : String := "/var/tmp/"

/-- `sprintf(un.sun_path, "%s%05d", CLI_PATH, getpid())`. -/
def clientPath (pid : ℕ) : Path :=
  (cliPath.toList ++ (Nat.toDigits 10 pid).leftpad 5 '0').map fun c => .ofNat c.toNat

/-- `cli_conn`. -/
def cliConn (env : ConnEnv) (name : Path) : Return :=
  let calls := [(Call.socket env.socket.value, env.socket.errno)]
  match env.socket.value with
  | none => ret (-1) calls
  | some fd =>
    let path := clientPath env.pid
    let calls := calls ++ [(.unlink path env.unlink.value.isSome, env.unlink.errno),
      (.bind path env.bind.value.isSome, env.bind.errno)]
    if env.bind.value = none then errout (-2) fd env.close calls
    else
      let calls := calls ++ [(.connect name env.connect.value.isSome, env.connect.errno)]
      if env.connect.value = none then errout (-4) fd env.close calls else ret fd calls

/-- The address that `accept` reports: that of a socket without a name, or a path. -/
inductive Peer
  | unnamed
  | path (p : Path)
  deriving DecidableEq, Repr

/-- What the calls of `serv_accept` return; the result of `stat` depends on the path. -/
structure AcceptEnv where
  accept : Reply (ℤ × Peer)
  stat : Path → Reply Stat
  unlink : Reply Unit
  close : Reply Unit

/-- The size of `sun_path`. -/
def sunPathSize : ℕ := 108

/-- `offsetof(struct sockaddr_un, sun_path)`. -/
def sunPathOffset : ℕ := 2

/-- The bytes of the address behind the family: a path has its terminator. -/
def Peer.sunPath : Peer → List UInt8
  | .unnamed => []
  | .path p => p ++ [0]

/-- The length of the address, which may be more than is stored. -/
def Peer.len (peer : Peer) : ℕ := sunPathOffset + peer.sunPath.length

/-- What `serv_accept` returns, `*uidptr` if it is set, and the indices of `un.sun_path` at which
it stores. -/
structure Accepted where
  ret : Return
  uid : Option ℕ
  stores : List ℤ
  deriving DecidableEq, Repr

/-- The string at `un.sun_path` that ends at `len` at the latest. -/
def stringAt (sunPath : ℤ → UInt8) (len : ℕ) : Path :=
  (cstring (Memory.load sunPath (len + 1))).getD []

/-- `len -= offsetof(struct sockaddr_un, sun_path)`. -/
def Peer.pathLen (peer : Peer) : ℕ := peer.len - sunPathOffset

/-- The string at `un.sun_path` when `accept` has stored the address, no more than `sizeof(un)`
bytes of it, and `un.sun_path[len] = 0` has been done.  `sunPath` is the memory from
`un.sun_path` on. -/
def Peer.pathSeen (peer : Peer) (sunPath : ℤ → UInt8) : Path :=
  let sunPath := Memory.fill (peer.sunPath.take sunPathSize) sunPath
  stringAt (Function.update sunPath peer.pathLen 0) peer.pathLen

/-- `serv_accept`; `uidptr` says whether the pointer is not `NULL`. -/
def servAccept (env : AcceptEnv) (uidptr : Bool) (sunPath : ℤ → UInt8) : Accepted :=
  let calls := [(Call.accept (env.accept.value.map Prod.fst), env.accept.errno)]
  match env.accept.value with
  | none => { ret := ret (-1) calls, uid := none, stores := [] }
  | some (clifd, peer) =>
    let stores := [(peer.pathLen : ℤ)]
    let path := peer.pathSeen sunPath
    let statbuf := (env.stat path).value
    let calls := calls ++ [(.stat path statbuf, (env.stat path).errno)]
    match statbuf with
    | none => { ret := errout (-2) clifd env.close calls, uid := none, stores := stores }
    | some st =>
      if st.isSock = false then
        { ret := errout (-3) clifd env.close calls, uid := none, stores := stores }
      else
        let uid := if uidptr then some st.uid else none
        let calls := calls ++ [(.unlink path env.unlink.value.isSome, env.unlink.errno)]
        { ret := ret clifd calls, uid := uid, stores := stores }

/-! ## What the calls leave behind -/

/-- A call that makes the helper fail. -/
def Call.fails : Call → Bool
  | .socket none | .accept none | .bind _ false | .listen false | .connect _ false
  | .stat _ none => true
  | .stat _ (some st) => !st.isSock
  | _ => false

def Call.isClose : Call → Bool
  | .close _ _ => true
  | _ => false

/-- The descriptors open after a call; `close` releases the descriptor even if it fails. -/
def Call.descriptors (fds : List ℤ) : Call → List ℤ
  | .socket (some fd) | .accept (some fd) => fd :: fds
  | .close fd _ => fds.filter (· ≠ fd)
  | _ => fds

/-- The descriptors that some calls have opened and not closed. -/
def openFds (calls : List (Call × ℤ)) : List ℤ :=
  calls.foldl (fun fds c => c.1.descriptors fds) []

/-- The socket files that are there after a call.  A `bind` to the empty name creates none: the
kernel picks an address outside the file system. -/
def Call.files (paths : List Path) : Call → List Path
  | .bind path true => if path = [] then paths else path :: paths
  | .unlink path true => paths.filter (· ≠ path)
  | _ => paths

/-- The socket files that some calls have created and not removed. -/
def created (calls : List (Call × ℤ)) : List Path :=
  calls.foldl (fun paths c => c.1.files paths) []

/-- A helper fails when one of its calls has failed, and then it has undone what it did and has
kept `errno`; otherwise it returns an open descriptor. -/
structure ErrorAtomic (r : Return) : Prop where
  fails : r.rval < 0 ↔ ∃ c ∈ r.calls, c.1.fails = true
  closed : r.rval < 0 → openFds r.calls = []
  errno : r.rval < 0 → r.errno = lastErrno (r.calls.filter fun c => !c.1.isClose)
  removed : r.rval < 0 → created r.calls = []
  succeeds : 0 ≤ r.rval → r.rval ∈ openFds r.calls

/-- A name fits `sun_path`: `strcpy` has room for it and its terminator. -/
def FitsPath (name : Path) : Prop := name.length < sunPathSize ∧ 0 ∉ name

/-- A new descriptor is not negative. -/
def NewFd (r : Reply ℤ) : Prop := ∀ fd, r.value = some fd → 0 ≤ fd

/-! ## Return by return -/

/-- There is nothing to remove at the beginning. -/
theorem files_unlink_nil (path : Path) (ok : Bool) : Call.files [] (.unlink path ok) = [] := by
  cases ok with
  | true | false => rfl

/-- The file is there when `bind` has succeeded, whatever the next call is. -/
theorem created_bound {fd : Option ℤ} {path : Path} {ok : Bool} {c : Call} {e e' e'' e₀ : ℤ}
    (hc : ∀ paths, c.files paths = paths) :
    created ([(.socket fd, e)] ++ [(.unlink path ok, e'), (.bind path true, e'')] ++ [(c, e₀)]) =
      if path = [] then [] else [path] := by
  have hsocket : Call.files [] (.socket fd) = [] := by
    cases fd with
    | none | some => rfl
  show c.files (Call.files (Call.files (Call.files [] (.socket fd)) (.unlink path ok)) _) = _
  rw [hc, hsocket, files_unlink_nil]
  rfl

/-- A helper that has acquired nothing yet. -/
theorem errorAtomic_ret_failed {c : Call} {e : ℤ} (hfails : c.fails = true)
    (hfds : c.descriptors [] = []) (hfiles : c.files [] = []) (hclose : c.isClose = false) :
    ErrorAtomic (ret (-1) [(c, e)]) where
  fails := iff_of_true (show (-1 : ℤ) < 0 by decide) ⟨_, List.mem_singleton_self _, hfails⟩
  closed _ := hfds
  errno _ := by simp [ret, hclose]
  removed _ := hfiles
  succeeds h := absurd h (show ¬ (0 : ℤ) ≤ -1 by decide)

/-- A helper that has come to its end. -/
theorem errorAtomic_ret {fd : ℤ} {calls : List (Call × ℤ)} (hfd : 0 ≤ fd)
    (hok : ∀ c ∈ calls, c.1.fails = false) (hopen : fd ∈ openFds calls) :
    ErrorAtomic (ret fd calls) where
  fails := by
    refine iff_of_false (not_lt.mpr hfd) ?_
    rintro ⟨c, hc, hfails⟩
    rw [hok c hc] at hfails
    cases hfails
  closed h := absurd h (not_lt.mpr hfd)
  errno h := absurd h (not_lt.mpr hfd)
  removed h := absurd h (not_lt.mpr hfd)
  succeeds _ := hopen

/-- `errout` closes the descriptor and keeps `errno`, so that it comes down to the files. -/
theorem errorAtomic_errout_iff {rval fd : ℤ} {close : Reply Unit} {calls : List (Call × ℤ)}
    (hrval : rval < 0) (hfails : ∃ c ∈ calls, c.1.fails = true) (hopen : openFds calls = [fd])
    (hclose : ∀ c ∈ calls, c.1.isClose = false) :
    ErrorAtomic (errout rval fd close calls) ↔ created calls = [] := by
  have hcreated : created (errout rval fd close calls).calls = created calls := by
    simp [errout, created, Call.files]
  refine ⟨fun h => hcreated ▸ h.removed hrval, fun hnone => ⟨?_, ?_, ?_, ?_, ?_⟩⟩
  · obtain ⟨c, hc, hcfails⟩ := hfails
    exact iff_of_true hrval ⟨c, List.mem_append_left _ hc, hcfails⟩
  · intro _
    have hfold : openFds (errout rval fd close calls).calls =
        (openFds calls).filter (· ≠ fd) := by
      simp [errout, openFds, Call.descriptors]
    rw [hfold, hopen]
    simp
  · intro _
    have hkeep : calls.filter (fun c => !c.1.isClose) = calls :=
      List.filter_eq_self.mpr fun c hc => by simp [hclose c hc]
    show lastErrno calls = lastErrno ((calls ++ [_]).filter fun c => !c.1.isClose)
    rw [List.filter_append, hkeep]
    simp [Call.isClose]
  · exact fun _ => hcreated.trans hnone
  · exact fun h => absurd h (not_le.mpr hrval)

/-- `serv_listen` and `cli_conn` when `bind` fails. -/
theorem errorAtomic_unbound {fd : ℤ} {path : Path} {ok : Bool} {close : Reply Unit}
    {e e' e'' : ℤ} : ErrorAtomic (errout (-2) fd close
      ([(.socket (some fd), e)] ++ [(.unlink path ok, e'), (.bind path false, e'')])) := by
  refine (errorAtomic_errout_iff (by decide) ?_ rfl ?_).mpr ?_
  · simp [Call.fails]
  · simp [Call.isClose]
  · exact files_unlink_nil path ok

/-- The two when `bind` has succeeded and the call after it fails. -/
theorem errorAtomic_bound_iff {rval fd : ℤ} {path : Path} {ok : Bool} {c : Call}
    {close : Reply Unit} {e e' e'' e₀ : ℤ} (hrval : rval < 0) (hfails : c.fails = true)
    (hclose : c.isClose = false) (hfds : ∀ fds, c.descriptors fds = fds)
    (hfiles : ∀ paths, c.files paths = paths) :
    ErrorAtomic (errout rval fd close ([(.socket (some fd), e)] ++
      [(.unlink path ok, e'), (.bind path true, e'')] ++ [(c, e₀)])) ↔ path = [] := by
  refine (errorAtomic_errout_iff hrval ?_ ?_ ?_).trans ?_
  · exact ⟨(c, e₀), List.mem_append_right _ (List.mem_singleton_self _), hfails⟩
  · exact hfds [fd]
  · rw [List.forall_mem_append, List.forall_mem_singleton]
    exact ⟨by simp [Call.isClose], hclose⟩
  · rw [created_bound hfiles]
    simp

theorem servListen_atomic_iff {env : ListenEnv} (hfd : NewFd env.socket) (name : Path) :
    ErrorAtomic (servListen env name) ↔
      env.socket.value = none ∨ env.bind.value = none ∨ env.listen.value.isSome ∨ name = [] := by
  unfold servListen
  cases hsocket : env.socket.value with
  | none => exact iff_of_true (errorAtomic_ret_failed rfl rfl rfl rfl) (.inl rfl)
  | some fd =>
    cases hbind : env.bind.value with
    | none => exact iff_of_true errorAtomic_unbound (.inr (.inl rfl))
    | some bound =>
      cases hlisten : env.listen.value with
      | none =>
        refine (errorAtomic_bound_iff (by decide) rfl rfl (fun _ => rfl) fun _ => rfl).trans ?_
        simp
      | some listening =>
        refine iff_of_true (errorAtomic_ret (hfd fd hsocket) ?_ ?_) (.inr (.inr (.inl rfl)))
        · simp [Call.fails]
        · simp [openFds, Call.descriptors]

/-- The path of a client is not empty. -/
theorem clientPath_ne_nil (pid : ℕ) : clientPath pid ≠ [] := by
  simp [clientPath, cliPath]

theorem cliConn_atomic_iff {env : ConnEnv} (hfd : NewFd env.socket) (name : Path) :
    ErrorAtomic (cliConn env name) ↔
      env.socket.value = none ∨ env.bind.value = none ∨ env.connect.value.isSome := by
  unfold cliConn
  cases hsocket : env.socket.value with
  | none => exact iff_of_true (errorAtomic_ret_failed rfl rfl rfl rfl) (.inl rfl)
  | some fd =>
    cases hbind : env.bind.value with
    | none => exact iff_of_true errorAtomic_unbound (.inr (.inl rfl))
    | some bound =>
      cases hconnect : env.connect.value with
      | none =>
        refine (errorAtomic_bound_iff (by decide) rfl rfl (fun _ => rfl) fun _ => rfl).trans ?_
        simp [clientPath_ne_nil env.pid]
      | some connected =>
        refine iff_of_true (errorAtomic_ret (hfd fd hsocket) ?_ ?_) (.inr (.inr rfl))
        · simp [Call.fails]
        · simp [openFds, Call.descriptors]

/-- `serv_accept` creates no file, so that `errout` is all it needs. -/
theorem servAccept_atomic {env : AcceptEnv}
    (hfd : ∀ fd peer, env.accept.value = some (fd, peer) → 0 ≤ fd) (uidptr : Bool)
    (sunPath : ℤ → UInt8) : ErrorAtomic (servAccept env uidptr sunPath).ret := by
  unfold servAccept
  cases haccept : env.accept.value with
  | none => exact errorAtomic_ret_failed rfl rfl rfl rfl
  | some conn =>
    obtain ⟨clifd, peer⟩ := conn
    simp only
    generalize peer.pathSeen sunPath = path
    cases hstat : (env.stat path).value with
    | none =>
      refine (errorAtomic_errout_iff (by decide) ?_ rfl ?_).mpr rfl
      · simp [Call.fails]
      · simp [Call.isClose]
    | some st =>
      by_cases hsock : st.isSock = false
      · simp only [if_pos hsock]
        refine (errorAtomic_errout_iff (by decide) ?_ rfl ?_).mpr rfl
        · simp [Call.fails, hsock]
        · simp [Call.isClose]
      · simp only [if_neg hsock]
        refine errorAtomic_ret (hfd clifd peer haccept) ?_ ?_
        · simpa [Call.fails] using hsock
        · simp [openFds, Call.descriptors]

/-- **The helpers are atomic, but for the files**: `serv_accept` always, `serv_listen` unless
`listen` fails when `bind` has created a file, and `cli_conn` unless `connect` fails when `bind`
has not.  The length of the name does not matter for it. -/
theorem helpers_atomic_iff (listenEnv : ListenEnv) (connEnv : ConnEnv) (acceptEnv : AcceptEnv)
    (name : Path) (hlisten : NewFd listenEnv.socket) (hconn : NewFd connEnv.socket)
    (haccept : ∀ fd peer, acceptEnv.accept.value = some (fd, peer) → 0 ≤ fd) (uidptr : Bool)
    (sunPath : ℤ → UInt8) :
    (ErrorAtomic (servListen listenEnv name) ↔ listenEnv.socket.value = none ∨
      listenEnv.bind.value = none ∨ listenEnv.listen.value.isSome ∨ name = []) ∧
    ErrorAtomic (servAccept acceptEnv uidptr sunPath).ret ∧
    (ErrorAtomic (cliConn connEnv name) ↔ connEnv.socket.value = none ∨
      connEnv.bind.value = none ∨ connEnv.connect.value.isSome) :=
  ⟨servListen_atomic_iff hlisten name, servAccept_atomic haccept uidptr sunPath,
    cliConn_atomic_iff hconn name⟩

/-- A call that succeeds, with `errno` as it was. -/
def done : Reply Unit := ⟨some (), 0⟩

/-- A server is started with the name `"s"`, and `unlink` finds nothing to remove. -/
def starting : ListenEnv := ⟨⟨some 3, 0⟩, ⟨none, 2⟩, done, done, done⟩

/-- The same, and `listen` fails. -/
def deaf : ListenEnv := { starting with listen := ⟨none, 98⟩ }

/-- A client finds no server: `connect` fails with `ECONNREFUSED`. -/
def refused : ConnEnv := ⟨1234, ⟨some 3, 0⟩, ⟨none, 2⟩, done, ⟨none, 111⟩, done⟩

/-- A client that is bound to a path of `n` bytes is accepted. -/
def bound (n : ℕ) : AcceptEnv where
  accept := ⟨some (4, .path (List.replicate n 97)), 0⟩
  stat p := ⟨if p = [] then none else some ⟨true, 1000⟩, 0⟩
  unlink := done
  close := done

theorem helpers_atomic_starting : ErrorAtomic (servListen starting [115]) ∧
    ErrorAtomic (servAccept (bound 5) true fun _ => 0).ret ∧
    ErrorAtomic (cliConn { refused with connect := done } [115]) := by
  have hlisten : NewFd starting.socket := by simp [NewFd, starting]
  have hconn : NewFd refused.socket := by simp [NewFd, refused]
  have hiff := helpers_atomic_iff starting { refused with connect := done } (bound 5) [115] hlisten
    hconn (by simp [bound]) true fun _ => 0
  exact ⟨hiff.1.mpr (.inr (.inr (.inl rfl))), hiff.2.1, hiff.2.2.mpr (.inr (.inr rfl))⟩

/-- The server leaves `s` behind when `listen` fails, and the client `/var/tmp/01234`. -/
theorem failed_helpers_leave_files :
    (¬ ∀ (env : ListenEnv) (name : Path), FitsPath name → NewFd env.socket →
      ErrorAtomic (servListen env name)) ∧
    ¬ ∀ (env : ConnEnv) (name : Path), FitsPath name → NewFd env.socket →
      ErrorAtomic (cliConn env name) := by
  have hname : FitsPath [115] := ⟨by decide, by decide⟩
  constructor
  · intro hclaim
    have hfd : NewFd deaf.socket := by simp [NewFd, deaf, starting]
    have hatomic := (servListen_atomic_iff hfd [115]).mp (hclaim deaf [115] hname hfd)
    revert hatomic
    simp [deaf, starting, done]
  · intro hclaim
    have hfd : NewFd refused.socket := by simp [NewFd, refused]
    have hatomic := (cliConn_atomic_iff hfd [115]).mp (hclaim refused [115] hname hfd)
    revert hatomic
    simp [refused, done]

/-! ## The peer's path -/

/-- What the kernel reports: a new descriptor, and if the peer has a path, one of at most 108
bytes.  No file has the empty path. -/
structure AcceptEnv.Possible (env : AcceptEnv) : Prop where
  newFd : ∀ fd peer, env.accept.value = some (fd, peer) → 0 ≤ fd
  path : ∀ fd p, env.accept.value = some (fd, .path p) →
    0 < p.length ∧ p.length ≤ sunPathSize ∧ 0 ∉ p
  stat_nil : (env.stat []).value = none

/-- The path that a call is about. -/
def Call.path? : Call → Option Path
  | .stat p _ | .unlink p _ | .bind p _ | .connect p _ => some p
  | _ => none

/-- `serv_accept` stores inside `sun_path`, and when it succeeds the path that it looks up and
then removes is the one the peer is bound to, and `*uidptr` its owner. -/
structure Identifies (env : AcceptEnv) (uidptr : Bool) (a : Accepted) : Prop where
  inBounds : ∀ i ∈ a.stores, 0 ≤ i ∧ i < sunPathSize
  path : 0 ≤ a.ret.rval → ∃ fd p, env.accept.value = some (fd, .path p) ∧
    a.ret.calls.filterMap (fun c => c.1.path?) = [p, p] ∧
    a.uid = if uidptr then (env.stat p).value.map Stat.uid else none

/-- The terminator goes behind the one that the kernel has counted. -/
theorem pathLen_path (p : Path) : (Peer.path p).pathLen = p.length + 1 := by
  rw [Peer.pathLen, Peer.len, Nat.add_sub_cancel_left]
  exact List.length_append

theorem Peer.pathSeen_unnamed (sunPath : ℤ → UInt8) : Peer.unnamed.pathSeen sunPath = [] := by
  have hzero : Peer.unnamed.pathLen = 0 := rfl
  simp [Peer.pathSeen, stringAt, hzero, Memory.load, cstring]

/-- A path that is stored with its terminator is read back. -/
theorem Peer.pathSeen_path {p : Path} (hlen : p.length < sunPathSize) (hnul : 0 ∉ p)
    (sunPath : ℤ → UInt8) : (Peer.path p).pathSeen sunPath = p := by
  have hbytes : (Peer.path p).sunPath = p ++ [0] := rfl
  have hpathLen : (Peer.path p).pathLen = (p ++ [0]).length := by
    rw [pathLen_path, List.length_append, List.length_singleton]
  have hstored : (p ++ [0]).take sunPathSize = p ++ [0] := by
    rw [List.take_of_length_le]
    simpa using hlen
  rw [Peer.pathSeen, stringAt, hbytes, hstored, hpathLen, Memory.load_update, Memory.load_fill,
    List.append_assoc, cstring_append_of_notMem hnul]
  simp [cstring]

/-- `serv_accept` stores one byte, unless `accept` fails. -/
theorem servAccept_stores {env : AcceptEnv} {fd : ℤ} {peer : Peer}
    (haccept : env.accept.value = some (fd, peer)) (uidptr : Bool) (sunPath : ℤ → UInt8) :
    (servAccept env uidptr sunPath).stores = [(peer.pathLen : ℤ)] := by
  unfold servAccept
  simp only [haccept]
  cases (env.stat (peer.pathSeen sunPath)).value with
  | none => rfl
  | some st =>
    by_cases hsock : st.isSock = false
    · simp only [if_pos hsock]
    · simp only [if_neg hsock]

/-- What `serv_accept` has done when it succeeds, in terms of the path that it sees. -/
theorem servAccept_succeeds {env : AcceptEnv} {uidptr : Bool} {sunPath : ℤ → UInt8}
    (hrval : 0 ≤ (servAccept env uidptr sunPath).ret.rval) :
    ∃ fd peer st, env.accept.value = some (fd, peer) ∧
      (env.stat (peer.pathSeen sunPath)).value = some st ∧
      (servAccept env uidptr sunPath).ret.calls.filterMap (fun c => c.1.path?) =
        [peer.pathSeen sunPath, peer.pathSeen sunPath] ∧
      (servAccept env uidptr sunPath).uid = if uidptr then some st.uid else none := by
  unfold servAccept at hrval ⊢
  cases haccept : env.accept.value with
  | none =>
    rw [haccept] at hrval
    exact absurd hrval (show ¬ (0 : ℤ) ≤ -1 by decide)
  | some conn =>
    obtain ⟨fd, peer⟩ := conn
    simp only [haccept] at hrval ⊢
    refine ⟨fd, peer, ?_⟩
    cases hstat : (env.stat (peer.pathSeen sunPath)).value with
    | none =>
      rw [hstat] at hrval
      exact absurd hrval (show ¬ (0 : ℤ) ≤ -2 by decide)
    | some st =>
      simp only [hstat] at hrval ⊢
      by_cases hsock : st.isSock = false
      · simp only [if_pos hsock] at hrval
        exact absurd hrval (show ¬ (0 : ℤ) ≤ -3 by decide)
      · simp only [if_neg hsock]
        exact ⟨st, trivial, rfl, rfl, rfl⟩

/-- **`serv_accept` identifies the peer exactly when its path has at most 106 bytes** or it has
none: behind 107 and more the terminator of `serv_accept` is the second one, and `sun_path` has
no room for it. -/
theorem serv_accept_identifies_iff (env : AcceptEnv) (uidptr : Bool) (sunPath : ℤ → UInt8)
    (hpossible : env.Possible) : Identifies env uidptr (servAccept env uidptr sunPath) ↔
      ∀ fd p, env.accept.value = some (fd, .path p) → p.length ≤ 106 := by
  constructor
  · intro hid fd p haccept
    have hbound := hid.inBounds (Peer.path p).pathLen
      (by rw [servAccept_stores haccept]; exact List.mem_singleton_self _)
    rw [pathLen_path] at hbound
    unfold sunPathSize at hbound
    omega
  · intro hshort
    constructor
    · intro i hi
      cases haccept : env.accept.value with
      | none => simp [servAccept, haccept] at hi
      | some conn =>
        obtain ⟨fd, peer⟩ := conn
        rw [servAccept_stores haccept] at hi
        obtain rfl := List.mem_singleton.mp hi
        refine ⟨Int.natCast_nonneg _, ?_⟩
        cases peer with
        | unnamed => decide
        | path p =>
          have hlen := hshort fd p haccept
          rw [pathLen_path]
          unfold sunPathSize
          omega
    · intro hrval
      obtain ⟨fd, peer, st, haccept, hstat, hpaths, huid⟩ := servAccept_succeeds hrval
      cases peer with
      | unnamed =>
        rw [Peer.pathSeen_unnamed, hpossible.stat_nil] at hstat
        cases hstat
      | path p =>
        have hlen := hshort fd p haccept
        have hseen : (Peer.path p).pathSeen sunPath = p :=
          Peer.pathSeen_path (by unfold sunPathSize; omega) (hpossible.path fd p haccept).2.2 _
        rw [hseen] at hstat hpaths
        exact ⟨fd, p, haccept, hpaths, by rw [huid, hstat]; rfl⟩

theorem possible_bound {n : ℕ} (hpos : 0 < n) (hle : n ≤ sunPathSize) : (bound n).Possible where
  newFd fd peer h := by
    obtain ⟨rfl, -⟩ := Prod.mk.inj (Option.some.inj h)
    decide
  path fd p h := by
    obtain ⟨-, hp⟩ := Prod.mk.inj (Option.some.inj h)
    obtain rfl := Peer.path.inj hp
    refine ⟨?_, ?_, fun hmem => ?_⟩
    · rwa [List.length_replicate]
    · rwa [List.length_replicate]
    · exact absurd (List.eq_of_mem_replicate hmem) (by decide)
  stat_nil := rfl

theorem serv_accept_identifies_106 :
    Identifies (bound 106) true (servAccept (bound 106) true fun _ => 255) := by
  have hpossible : (bound 106).Possible := possible_bound (by decide) (by decide)
  refine (serv_accept_identifies_iff (bound 106) true _ hpossible).mpr fun fd p h => ?_
  obtain ⟨-, hp⟩ := Prod.mk.inj (Option.some.inj h)
  obtain rfl := Peer.path.inj hp
  exact List.length_replicate.le

/-- A path of 107 bytes: the terminator is stored behind `sun_path`. -/
theorem serv_accept_stores_outside : ¬ ∀ (env : AcceptEnv) (uidptr : Bool) (sunPath : ℤ → UInt8),
    env.Possible → Identifies env uidptr (servAccept env uidptr sunPath) := by
  intro hclaim
  have hid := hclaim (bound 107) true (fun _ => 0) (possible_bound (by decide) (by decide))
  have haccept : (bound 107).accept.value = some (4, .path (List.replicate 107 97)) := rfl
  have hstore : (108 : ℤ) ∈ (servAccept (bound 107) true fun _ => 0).stores := by
    rw [servAccept_stores haccept, pathLen_path, List.length_replicate]
    exact List.mem_singleton_self _
  exact absurd (hid.inBounds 108 hstore).2 (by decide)

end LinuxExercise.Network.Unix
