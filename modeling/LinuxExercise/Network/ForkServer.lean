import LinuxExercise.Framework.System
import LinuxExercise.Framework.Threads
import LinuxExercise.Servers.Kernel

/-!
# The forking server (`011network/03TCP_FORK/src/01server.c`)

The parent accepts a connection and forks.  The child serves it in a loop of its own.  The
parent, too, goes on to the code that serves the connection (lines 82-93), whatever `fork` has
returned.  That is right when `fork` has failed; otherwise it has closed the connection already.

A connection is known by the order in which it was accepted, since its descriptor is used again
after it is closed.  Parent and children take their steps in any order, a step for each call, and
what the calls return is an input.  `descriptor_discipline_iff` says which runs use each
connection as they should.
-/

namespace LinuxExercise.Network

open Servers

namespace Fork

/-- `BUF_SIZE`. -/
def bufSize : ℕ := 8 * 1024

/-- A call on a connection: `read` with what it returned, `write` with the buffer and the
length. -/
inductive Op
  | read (r : ReadResult)
  | write (buf : List UInt8) (count : ℕ)
  | close
  deriving DecidableEq

/-- `readBuf`, cleared by `bzero` and filled by `read`. -/
def readBuf : ReadResult → List UInt8
  | .data bytes => (bytes ++ List.replicate bufSize 0).take bufSize
  | _ => List.replicate bufSize 0

/-- Lines 57-63 and 85-92: the conversion and `write(confd,readBuf,readlen)`. -/
def answer (r : ReadResult) : Op := .write (upperLoop r.n (readBuf r)) (sizeT r.n)

/-! ## The processes -/

/-- Where a child is; `r` is what its last `read` returned. -/
inductive ChildPc
  | closeSockfd
  | read
  | write (r : ReadResult)
  deriving DecidableEq

/-- A child, with the connection that `confd` stands for and the history of its calls on it. -/
structure Child where
  confd : Option ℕ
  pc : ChildPc
  log : List Op
  deriving DecidableEq

/-- Lines 52-64.  The loop has no exit. -/
def Child.step (r : ReadResult) (c : Child) : Child :=
  match c.pc with
  | .closeSockfd => { c with pc := .read }
  | .read => { c with pc := .write r, log := c.log ++ [.read r] }
  | .write r' => { c with pc := .read, log := c.log ++ [answer r'] }

/-- Where the parent is. -/
inductive Pc
  | accept
  | fork
  /-- Line 68, in the branch for `pid > 0`. -/
  | closeConfd
  | read
  | write (r : ReadResult)
  | close
  deriving DecidableEq

end Fork

open Fork

/-- The parent and its children. -/
structure Fork where
  pc : Pc
  /-- The connection that `confd` stands for, if the last `accept` has succeeded. -/
  confd : Option ℕ
  children : List Child
  /-- History: the number of connections accepted. -/
  accepted : ℕ
  /-- History: whether the `fork` for a connection has succeeded. -/
  forked : ℕ → Option Bool
  /-- History: the calls of the parent on its connections, in order. -/
  log : List (Option ℕ × Op)

namespace Fork

/-- A step, with what the call returns. -/
inductive Label
  | accept (ok : Bool)
  | fork (ok : Bool)
  /-- The next call of the parent on `confd`; `read`, if that is the call, returns `r`. -/
  | parent (r : ReadResult)
  | child (i : ℕ) (r : ReadResult)
  deriving DecidableEq

def start : Fork := ⟨.accept, none, [], 0, fun _ => none, []⟩

/-- Line 42. -/
def accept (ok : Bool) (s : Fork) : Fork :=
  { s with
    pc := .fork
    confd := if ok then some s.accepted else none
    accepted := if ok then s.accepted + 1 else s.accepted }

/-- Line 50, with the branches for `pid > 0` and `-1`: a failed `fork` leads to the lines after
them as well. -/
def fork (ok : Bool) (s : Fork) : Fork :=
  { s with
    pc := if ok then .closeConfd else .read
    children := if ok then s.children ++ [⟨s.confd, .closeSockfd, []⟩] else s.children
    forked := fun k => if s.confd = some k then some ok else s.forked k }

/-- The parent makes a call on `confd` and gets to `pc`. -/
def call (op : Op) (pc : Pc) (s : Fork) : Fork :=
  { s with pc := pc, log := s.log ++ [(s.confd, op)] }

/-- Child `i` takes a step. -/
def child (i : ℕ) (c : Child) (r : ReadResult) (s : Fork) : Fork :=
  { s with children := s.children.set i (c.step r) }

/-- One step of the parent or of a child. -/
def advance (s : Fork) : Label → Option Fork
  | .accept ok => if s.pc = .accept then some (s.accept ok) else none
  | .fork ok => if s.pc = .fork then some (s.fork ok) else none
  | .parent r =>
    match s.pc with
    | .closeConfd => some (s.call .close .read)
    | .read => some (s.call (.read r) (.write r))
    | .write r' => some (s.call (answer r') .close)
    | .close => some (s.call .close .accept)
    | _ => none
  | .child i r =>
    match s.children[i]? with
    | some c => some (s.child i c r)
    | none => none

/-- `read` returns no more than what fits `readBuf`. -/
def Fits : ReadResult → Bool
  | .data bytes => decide (0 < bytes.length ∧ bytes.length ≤ bufSize)
  | _ => true

def Label.Fits : Label → Bool
  | .parent r | .child _ r => Fork.Fits r
  | _ => true

def next (s : Fork) (l : Label) : Option Fork := if l.Fits then advance s l else none

/-- The runs of the server. -/
def server : System Fork Label := System.ofStep start next

/-- The calls of the parent on connection `k`, in order. -/
def callsOn (k : ℕ) (s : Fork) : List Op :=
  s.log.filterMap fun e => if e.1 = some k then some e.2 else none

theorem callsOn_call (k : ℕ) (op : Op) (pc : Pc) (s : Fork) :
    (s.call op pc).callsOn k = s.callsOn k ++ if s.confd = some k then [op] else [] := by
  rw [callsOn, call, List.filterMap_append]
  apply congrArg (s.callsOn k ++ ·)
  by_cases hk : s.confd = some k
  · simp [hk]
  · simp [hk]

/-- What a call of the parent on its connection is, with the lines before and after it. -/
inductive ParentStep : Pc → Op → Pc → Prop
  | closeConfd : ParentStep .closeConfd .close .read
  | read (r : ReadResult) : ParentStep .read (.read r) (.write r)
  | write (r : ReadResult) : ParentStep (.write r) (answer r) .close
  | close : ParentStep .close .close .accept

/-- What a step is. -/
theorem next_cases {s s' : Fork} {l : Label} (h : next s l = some s') :
    (∃ ok, l = .accept ok ∧ s.pc = .accept ∧ s' = s.accept ok) ∨
    (∃ ok, l = .fork ok ∧ s.pc = .fork ∧ s' = s.fork ok) ∨
    (∃ r op pc, l = .parent r ∧ ParentStep s.pc op pc ∧ s' = s.call op pc) ∨
    ∃ i r c, l = .child i r ∧ Fits r = true ∧ s.children[i]? = some c ∧ s' = s.child i c r := by
  unfold next at h
  rw [Option.ite_none_right_eq_some] at h
  obtain ⟨hfits, h⟩ := h
  cases l with
  | accept ok =>
    rw [advance, Option.ite_none_right_eq_some] at h
    exact .inl ⟨ok, rfl, h.1, (Option.some.inj h.2).symm⟩
  | fork ok =>
    rw [advance, Option.ite_none_right_eq_some] at h
    exact .inr (.inl ⟨ok, rfl, h.1, (Option.some.inj h.2).symm⟩)
  | parent r =>
    unfold advance at h
    simp only at h
    refine .inr (.inr (.inl ?_))
    split at h
    · next hpc => exact ⟨r, _, _, rfl, hpc ▸ .closeConfd, (Option.some.inj h).symm⟩
    · next hpc => exact ⟨r, _, _, rfl, hpc ▸ .read r, (Option.some.inj h).symm⟩
    · next r' hpc => exact ⟨r, _, _, rfl, hpc ▸ .write r', (Option.some.inj h).symm⟩
    · next hpc => exact ⟨r, _, _, rfl, hpc ▸ .close, (Option.some.inj h).symm⟩
    · cases h
  | child i r =>
    unfold advance at h
    simp only at h
    split at h
    · next c hc => exact .inr (.inr (.inr ⟨i, r, c, rfl, hfits, hc, (Option.some.inj h).symm⟩))
    · cases h

/-! ## The calls of an iteration -/

/-- What the parent has done to the connection before line 83: closed it if it has a child. -/
def closed (ok : Bool) : List Op := if ok then [.close] else []

/-- The calls of an iteration on its connection; `r` is what `read` returned. -/
def iteration (ok : Bool) (r : ReadResult) : List Op := closed ok ++ [.read r, answer r, .close]

/-- The outcome of `fork` and the calls made so far, of a connection that the parent has got to
`pc` with. -/
def Reached (forked : Option Bool) (calls : List Op) : Pc → Prop
  | .accept => ∃ ok r, forked = some ok ∧ calls = iteration ok r
  | .fork => forked = none ∧ calls = []
  | .closeConfd => forked = some true ∧ calls = []
  | .read => ∃ ok, forked = some ok ∧ calls = closed ok
  | .write r => ∃ ok, forked = some ok ∧ calls = closed ok ++ [.read r]
  | .close => ∃ ok r, forked = some ok ∧ calls = closed ok ++ [.read r, answer r]

/-- Without a child `close` is the last call of an iteration only. -/
theorem nil_of_close_mid {r : ReadResult} {before after : List Op}
    (h : iteration false r = before ++ .close :: after) : after = [] := by
  match before, h with
  | [op, op'], h =>
    have hsame : op = .read r ∧ op' = answer r ∧ after = [] := by
      simpa [iteration, closed, eq_comm] using h
    exact hsame.2.2
  | [], h => simp [iteration, closed] at h
  | [_], h => simp [iteration, closed, answer] at h
  | _ :: _ :: _ :: _, h => simp [iteration, closed] at h

theorem Reached.step {forked : Option Bool} {calls : List Op} {pc pc' : Pc} {op : Op}
    (h : Reached forked calls pc) (hstep : ParentStep pc op pc') :
    Reached forked (calls ++ [op]) pc' := by
  cases hstep with
  | closeConfd =>
    obtain ⟨hforked, rfl⟩ := h
    exact ⟨true, hforked, rfl⟩
  | read r =>
    obtain ⟨ok, hforked, rfl⟩ := h
    exact ⟨ok, hforked, rfl⟩
  | write r =>
    obtain ⟨ok, hforked, rfl⟩ := h
    exact ⟨ok, r, hforked, List.append_assoc ..⟩
  | close =>
    obtain ⟨ok, r, hforked, rfl⟩ := h
    exact ⟨ok, r, hforked, List.append_assoc ..⟩

/-- The calls made so far are the first ones of an iteration. -/
theorem Reached.isPrefix {forked : Option Bool} {calls : List Op} {pc : Pc}
    (h : Reached forked calls pc) (hfailed : forked ≠ some true) :
    ∃ r, calls <+: iteration false r := by
  have hfalse : ∀ ok, forked = some ok → ok = false := by
    rintro ok rfl
    exact Bool.eq_false_iff.mpr fun hok => hfailed (congrArg some hok)
  cases pc with
  | accept =>
    obtain ⟨ok, r, hforked, rfl⟩ := h
    exact ⟨r, by rw [hfalse ok hforked]⟩
  | fork => exact ⟨.eof, by rw [h.2]; exact List.nil_prefix⟩
  | closeConfd => exact absurd h.1 hfailed
  | read =>
    obtain ⟨ok, hforked, rfl⟩ := h
    exact ⟨.eof, by rw [hfalse ok hforked]; exact List.nil_prefix⟩
  | write r =>
    obtain ⟨ok, hforked, rfl⟩ := h
    exact ⟨r, [answer r, .close], by rw [hfalse ok hforked]; rfl⟩
  | close =>
    obtain ⟨ok, r, hforked, rfl⟩ := h
    exact ⟨r, [.close], by rw [hfalse ok hforked]; rfl⟩

/-! ## The invariant -/

/-- The number of children that have the connection. -/
def childrenOf (k : ℕ) (s : Fork) : ℕ := s.children.countP fun c => decide (c.confd = some k)

/-- The current connection is the last one accepted, and it has been used as far as the parent
has got; the earlier ones have been through an iteration; a connection has a child if and only
if `fork` has succeeded for it. -/
structure Inv (s : Fork) : Prop where
  last : ∀ k, s.confd = some k → k + 1 = s.accepted
  fresh : ∀ k, s.accepted ≤ k → s.forked k = none ∧ s.callsOn k = []
  current : ∀ k, s.confd = some k → Reached (s.forked k) (s.callsOn k) s.pc
  finished : ∀ k < s.accepted, s.confd ≠ some k →
    Reached (s.forked k) (s.callsOn k) .accept
  children : ∀ k, s.childrenOf k = if s.forked k = some true then 1 else 0

theorem start_inv : Inv start where
  last _ hk := by cases hk
  fresh _ _ := ⟨rfl, rfl⟩
  current _ hk := by cases hk
  finished _ hk := absurd hk (Nat.not_lt_zero _)
  children _ := rfl

theorem Inv.accept {s : Fork} (h : Inv s) (hpc : s.pc = .accept) (ok : Bool) :
    Inv (s.accept ok) := by
  have hdone : ∀ k < s.accepted, Reached (s.forked k) (s.callsOn k) .accept := by
    intro k hk
    by_cases hcur : s.confd = some k
    · exact hpc ▸ h.current k hcur
    · exact h.finished k hk hcur
  cases ok with
  | true =>
    refine ⟨fun k hk => ?_, fun k hk => ?_, fun k hk => ?_, fun k hk hne => ?_, h.children⟩
    · obtain rfl := Option.some.inj hk
      rfl
    · exact h.fresh k (Nat.le_of_succ_le hk)
    · obtain rfl := Option.some.inj hk
      exact h.fresh _ le_rfl
    · refine hdone k (lt_of_le_of_ne (Nat.lt_succ_iff.mp hk) ?_)
      rintro rfl
      exact hne rfl
  | false =>
    refine ⟨fun k hk => ?_, h.fresh, fun k hk => ?_, fun k hk _ => hdone k hk, h.children⟩
    · cases hk
    · cases hk

theorem childrenOf_fork (k : ℕ) (ok : Bool) (s : Fork) :
    (s.fork ok).childrenOf k =
      s.childrenOf k + if s.confd = some k ∧ ok = true then 1 else 0 := by
  cases ok with
  | true => simp [childrenOf, Fork.fork, List.countP_append, List.countP_singleton]
  | false => simp [childrenOf, Fork.fork]

theorem Inv.fork {s : Fork} (h : Inv s) (hpc : s.pc = .fork) (ok : Bool) : Inv (s.fork ok) := by
  have hcur : ∀ k, s.confd = some k → s.forked k = none ∧ s.callsOn k = [] := by
    intro k hk
    have hreached := h.current k hk
    rw [hpc] at hreached
    exact hreached
  have hother : ∀ k, s.confd ≠ some k → (s.fork ok).forked k = s.forked k :=
    fun k hne => if_neg hne
  have hnow : ∀ k, s.confd = some k → (s.fork ok).forked k = some ok := fun k hk => if_pos hk
  refine ⟨h.last, fun k hk => ?_, fun k hk => ?_, fun k hk hne => ?_, fun k => ?_⟩
  · have hne : s.confd ≠ some k := by
      intro heq
      have hlast := h.last k heq
      have hle : s.accepted ≤ k := hk
      omega
    exact ⟨(hother k hne).trans (h.fresh k hk).1, (h.fresh k hk).2⟩
  · rw [hnow k hk]
    cases ok with
    | true => exact ⟨rfl, (hcur k hk).2⟩
    | false => exact ⟨false, rfl, (hcur k hk).2⟩
  · rw [hother k hne]
    exact h.finished k hk hne
  · rw [childrenOf_fork, h.children]
    by_cases hk : s.confd = some k
    · rw [hnow k hk, (hcur k hk).1]
      simp [hk]
    · rw [hother k hk]
      simp [hk]

theorem Inv.call {s : Fork} (h : Inv s) {op : Op} {pc : Pc} (hstep : ParentStep s.pc op pc) :
    Inv (s.call op pc) := by
  have hother : ∀ k, s.confd ≠ some k → (s.call op pc).callsOn k = s.callsOn k := by
    intro k hne
    rw [callsOn_call, if_neg hne, List.append_nil]
  refine ⟨h.last, fun k hk => ?_, fun k hk => ?_, fun k hk hne => ?_, h.children⟩
  · have hne : s.confd ≠ some k := by
      intro heq
      have hlast := h.last k heq
      have hle : s.accepted ≤ k := hk
      omega
    rw [hother k hne]
    exact h.fresh k hk
  · have hk' : s.confd = some k := hk
    rw [callsOn_call, if_pos hk']
    exact (h.current k hk').step hstep
  · rw [hother k hne]
    exact h.finished k hk hne

theorem Child.step_confd (r : ReadResult) (c : Child) : (c.step r).confd = c.confd := by
  unfold Child.step
  split <;> rfl

theorem Inv.child {s : Fork} (h : Inv s) {i : ℕ} {c : Child} (hc : s.children[i]? = some c)
    (r : ReadResult) : Inv (s.child i c r) := by
  refine ⟨h.last, h.fresh, h.current, h.finished, fun k => ?_⟩
  have hsame : (s.child i c r).childrenOf k = s.childrenOf k := by
    have hset := countP_set_add (p := fun c => decide (c.confd = some k)) (b := c.step r) hc
    simp only [Child.step_confd] at hset
    exact Nat.add_right_cancel hset
  rw [hsame]
  exact h.children k

theorem inv_of_run {h : List (Event Fork Label)} {s : Fork} (hrun : server.Run h s) : Inv s := by
  refine hrun.invariant ?_ ?_
  · rintro s rfl
    exact start_inv
  · intro s l s' _ hstep hinv
    obtain ⟨ok, -, hpc, rfl⟩ | ⟨ok, -, hpc, rfl⟩ | ⟨r, op, pc, -, hpc, rfl⟩ |
      ⟨i, r, c, -, -, hc, rfl⟩ := next_cases hstep
    · exact hinv.accept hpc ok
    · exact hinv.fork hpc ok
    · exact hinv.call hpc
    · exact hinv.child hc r

/-! ## The use of the connections -/

/-- The parent is done with connection `k`. -/
def Finished (k : ℕ) (s : Fork) : Prop := s.confd = some k → s.pc = .accept

/-- The parent makes no call on a connection after it has closed it, and has closed it once when
it is done with it.  If there is a child for it, there is one, and the parent does not serve the
connection; if `fork` has failed, the parent has served it and no child has it. -/
structure Disciplined (s : Fork) : Prop where
  silent : ∀ k before after, s.callsOn k = before ++ .close :: after → after = []
  closed : ∀ k < s.accepted, s.Finished k → (s.callsOn k).count .close = 1
  forked : ∀ k, s.forked k = some true →
    s.childrenOf k = 1 ∧ ∀ op ∈ s.callsOn k, op = .close
  failed : ∀ k, s.forked k = some false → s.childrenOf k = 0 ∧
    (s.Finished k → ∃ r, .read r ∈ s.callsOn k ∧ answer r ∈ s.callsOn k)

/-- The step is a `fork` that succeeds for a connection. -/
def ForksChild (e : Event Fork Label) : Prop := e.label = .fork true ∧ e.pre.confd ≠ none

instance (e : Event Fork Label) : Decidable (ForksChild e) :=
  inferInstanceAs (Decidable (_ ∧ _))

/-- The outcome recorded for a connection is that of a step. -/
theorem forked_iff {h : List (Event Fork Label)} {s : Fork} (hrun : server.Run h s) (k : ℕ) :
    s.forked k = some true ↔ ∃ e ∈ h, e.label = .fork true ∧ e.pre.confd = some k := by
  refine hrun.ledger (J := fun h s => s.forked k = some true ↔
    ∃ e ∈ h, e.label = .fork true ∧ e.pre.confd = some k) ?_ ?_
  · rintro s rfl
    simp [start]
  · intro h s l s' hr hstep ih
    simp only [List.mem_append, List.mem_singleton, or_and_right, exists_or, exists_eq_left]
    rw [← ih]
    obtain ⟨ok, rfl, -, rfl⟩ | ⟨ok, rfl, hpc, rfl⟩ | ⟨r, op, pc, rfl, -, rfl⟩ |
      ⟨i, r, c, rfl, -, -, rfl⟩ := next_cases hstep
    · simp [Fork.accept]
    · by_cases hk : s.confd = some k
      · have hnone := (inv_of_run hr).current k hk
        rw [hpc] at hnone
        simp [Fork.fork, hk, hnone.1]
      · simp [Fork.fork, hk]
    · simp [Fork.call]
    · simp [Fork.child]

/-- A run forks a child for a connection if and only if one is recorded. -/
theorem no_child_iff {h : List (Event Fork Label)} {s : Fork} (hrun : server.Run h s) :
    (∀ e ∈ h, ¬ ForksChild e) ↔ ∀ k, s.forked k ≠ some true := by
  constructor
  · intro hnone k hk
    obtain ⟨e, he, hlabel, hconfd⟩ := (forked_iff hrun k).1 hk
    exact hnone e he ⟨hlabel, by rw [hconfd]; exact Option.some_ne_none k⟩
  · rintro hnone e he ⟨hlabel, hconfd⟩
    obtain ⟨k, hk⟩ := Option.ne_none_iff_exists'.mp hconfd
    exact hnone k ((forked_iff hrun k).2 ⟨e, he, hlabel, hk⟩)

/-- The calls on a connection that the parent is done with are those of an iteration. -/
theorem Inv.calls_of_finished {s : Fork} (h : Inv s) {k : ℕ} (hk : k < s.accepted)
    (hdone : s.Finished k) : ∃ ok r, s.forked k = some ok ∧ s.callsOn k = iteration ok r := by
  by_cases hcur : s.confd = some k
  · have hreached := h.current k hcur
    rw [hdone hcur] at hreached
    exact hreached
  · exact h.finished k hk hcur

theorem Inv.lt_accepted {s : Fork} (h : Inv s) {k : ℕ} {ok : Bool} (hk : s.forked k = some ok) :
    k < s.accepted := by
  by_contra hge
  have hnone := (h.fresh k (not_lt.mp hge)).1
  rw [hk] at hnone
  cases hnone

/-- Without a child the calls on a connection are the first ones of an iteration. -/
theorem Inv.isPrefix {s : Fork} (h : Inv s) {k : ℕ} (hfailed : s.forked k ≠ some true) :
    ∃ r, s.callsOn k <+: iteration false r := by
  by_cases hcur : s.confd = some k
  · exact (h.current k hcur).isPrefix hfailed
  by_cases hk : k < s.accepted
  · exact (h.finished k hk hcur).isPrefix hfailed
  · rw [(h.fresh k (not_lt.mp hk)).2]
    exact ⟨.eof, List.nil_prefix⟩

theorem Inv.disciplined {s : Fork} (h : Inv s) (hnone : ∀ k, s.forked k ≠ some true) :
    Disciplined s := by
  refine ⟨fun k before after hcalls => ?_, fun k hk hdone => ?_,
    fun k hk => absurd hk (hnone k), fun k hk => ⟨?_, fun hdone => ?_⟩⟩
  · obtain ⟨r, rest, hiter⟩ := h.isPrefix (hnone k)
    rw [hcalls, List.append_assoc, List.cons_append] at hiter
    exact (List.append_eq_nil_iff.mp (nil_of_close_mid hiter.symm)).1
  · obtain ⟨ok, r, hforked, hcalls⟩ := h.calls_of_finished hk hdone
    have hfalse : ok = false := by
      cases ok with
      | true => exact absurd hforked (hnone k)
      | false => rfl
    rw [hcalls, hfalse]
    simp [iteration, Fork.closed, answer]
  · rw [h.children, hk]
    rfl
  · obtain ⟨ok, r, -, hcalls⟩ := h.calls_of_finished (h.lt_accepted hk) hdone
    refine ⟨r, ?_, ?_⟩
    · simp [hcalls, iteration]
    · simp [hcalls, iteration]

/-- An iteration that has forked a child closes the connection before it serves it. -/
theorem not_disciplined {s : Fork} (h : Inv s) (hpc : s.pc = .accept) {k : ℕ}
    (hk : s.forked k = some true) : ¬ Disciplined s := by
  intro hdisc
  obtain ⟨ok, r, hforked, hcalls⟩ := h.calls_of_finished (h.lt_accepted hk) fun _ => hpc
  obtain rfl : ok = true := Option.some.inj (hforked.symm.trans hk)
  have hnil := hdisc.silent k [] _ hcalls
  cases hnil

/-- **The parent uses its connections as it should in every run in which no `fork` succeeds for a
connection**, and in no other run that comes back to `accept`. -/
theorem descriptor_discipline_iff (h : List (Event Fork Label)) (s : Fork)
    (hrun : server.Run h s) :
    ((∀ e ∈ h, ¬ ForksChild e) → Disciplined s) ∧
      (s.pc = .accept → Disciplined s → ∀ e ∈ h, ¬ ForksChild e) := by
  have hinv := inv_of_run hrun
  rw [no_child_iff hrun]
  refine ⟨hinv.disciplined, ?_⟩
  intro hpc hdisc k hk
  exact not_disciplined hinv hpc hk hdisc

/-- A client connects and `fork` fails. -/
theorem descriptor_discipline_without_child : ∃ h s, server.Run h s ∧ s.accepted = 1 ∧
    s.pc = .accept ∧ Disciplined s := by
  obtain ⟨h, s, hrun, htest⟩ := System.exists_run_of_exec start next
    [.accept true, .fork false, .parent (.data [97]), .parent .eof, .parent .eof]
    (fun h s => decide (s.accepted = 1 ∧ s.pc = .accept ∧ ∀ e ∈ h, ¬ ForksChild e)) (by decide)
  obtain ⟨haccepted, hpc, hnone⟩ := of_decide_eq_true htest
  exact ⟨h, s, hrun, haccepted, hpc, (descriptor_discipline_iff h s hrun).1 hnone⟩

/-- A client connects and `fork` succeeds: the parent closes the connection twice. -/
theorem closes_twice : ¬ ∀ (h : List (Event Fork Label)) (s : Fork), server.Run h s →
    Disciplined s := by
  intro hclaim
  obtain ⟨h, s, hrun, htest⟩ := System.exists_run_of_exec start next
    [.accept true, .fork true, .parent .eof, .parent (.error .other), .parent .eof, .parent .eof]
    (fun _ s => decide (s.accepted = 1 ∧ s.pc = .accept ∧ (s.callsOn 0).count .close = 2))
    (by decide)
  obtain ⟨haccepted, hpc, hcount⟩ := of_decide_eq_true htest
  have hone := (hclaim h s hrun).closed 0 (by omega) fun _ => hpc
  omega

end Fork

end LinuxExercise.Network
