import LinuxExercise.ThreadPool.Progress

/-!
# How many workers a tick of the manager creates

One iteration of `adjust_thread` is followed on its own (`Tick`), from a pool whose counter is
right: `pthread_alive_num` slots hold the ids of alive workers, the others are unset.  The scan
of lines 222-229 fills the first unset slots until it has created `DEFAULT_THREAD_NUM` workers
or comes to the end of the array (`tick_created`); the bound on `pool->pthread_alive_num` in its
test has no part in it.

The scan is guarded by `pthread_alive_num + 1 < pthread_max_num`, where the comment asks for
fewer alive threads than the maximum: a pool that is one short of its maximum does not grow.
-/

namespace LinuxExercise.ThreadPool

open Monitor

/-! ## One tick -/

/-- The manager executes a statement of the iteration it is in. -/
def TickStep (s s' : State) : Prop :=
  s.adjust.pc ≠ .sleep ∧ ∃ answer choice, step s (.adjust answer choice) = some s'

/-- The manager goes undisturbed from where it is to the `sleep` of line 248. -/
def Tick (s s' : State) : Prop := Relation.ReflTransGen TickStep s s' ∧ s'.adjust.pc = .sleep

/-- The manager is at the top of its loop and the mutexes are free; `pthread_alive_num` slots
hold the ids of alive workers and the others are unset. -/
structure TickStart (s : State) : Prop where
  pc : s.adjust.pc = .whileShutdown
  running : s.pool.shutdown = false
  lock : s.pool.lock = none
  counter : s.pool.threadCounter = none
  length : s.pool.threads.length = s.pool.pthreadMaxNum
  slots : ∀ tid ∈ s.pool.threads, tid = 0 ∨ s.isLiveTid tid = true
  alive : s.pool.pthreadAliveNum = s.pool.threads.countP fun tid => decide (tid ≠ 0)

instance (s : State) : Decidable (TickStart s) :=
  decidable_of_iff (s.adjust.pc = .whileShutdown ∧ s.pool.shutdown = false ∧
      s.pool.lock = none ∧ s.pool.threadCounter = none ∧
      s.pool.threads.length = s.pool.pthreadMaxNum ∧
      (∀ tid ∈ s.pool.threads, tid = 0 ∨ s.isLiveTid tid = true) ∧
      s.pool.pthreadAliveNum = s.pool.threads.countP fun tid => decide (tid ≠ 0))
    ⟨fun ⟨hpc, hrunning, hlock, hcounter, hlength, hslots, halive⟩ =>
      ⟨hpc, hrunning, hlock, hcounter, hlength, hslots, halive⟩,
      fun h => ⟨h.pc, h.running, h.lock, h.counter, h.length, h.slots, h.alive⟩⟩

/-- The test of line 218, with the values that the snapshot reads in `s`. -/
def Grows (s : State) : Prop :=
  3 + s.pool.pthreadAliveNum < s.pool.queueSize ∧
    s.pool.pthreadAliveNum + 1 < s.pool.pthreadMaxNum

instance (s : State) : Decidable (Grows s) := inferInstanceAs (Decidable (_ ∧ _))

/-- The number of unset slots. -/
def State.unsetSlots (s : State) : ℕ := s.pool.threads.countP fun tid => decide (tid = 0)

/-- The number of workers that the tick creates. -/
def growth (s : State) : ℕ := if Grows s then min defaultThreadNum s.unsetSlots else 0

/-! ## What a tick has done so far -/

/-- The scan has looked at the slots below `i` and created `n` workers. -/
structure Scanned (s₀ : State) (p : Pool) (i n : ℕ) : Prop where
  grows : Grows s₀
  rest : ∀ j, i ≤ j → p.threads[j]? = s₀.pool.threads[j]?
  number : n = (s₀.pool.threads.take i).countP fun tid => decide (tid = 0)
  batch : n ≤ defaultThreadNum

/-- What a tick from `s₀` has done, by where it is; `n` workers have been created. -/
def TickPhase (s₀ : State) (p : Pool) (m : Adjust) (n : ℕ) : Prop :=
  match m.pc with
  | .whileShutdown | .lockSnapshot | .readSize => p.threads = s₀.pool.threads ∧ n = 0
  | .readAlive =>
    (p.threads = s₀.pool.threads ∧ n = 0) ∧ m.queueSize = s₀.pool.queueSize
  | .unlockSnapshot | .ifBacklog =>
    (p.threads = s₀.pool.threads ∧ n = 0) ∧ m.queueSize = s₀.pool.queueSize ∧
      m.pthreadAliveNum = s₀.pool.pthreadAliveNum
  | .lockGrow => (p.threads = s₀.pool.threads ∧ n = 0) ∧ Grows s₀
  | .forSlot => Scanned s₀ p m.i n ∧ m.pthreadAddNum = n
  | .ifSlot =>
    Scanned s₀ p m.i n ∧ m.pthreadAddNum = n ∧ m.i < s₀.pool.threads.length ∧
      n < defaultThreadNum
  | .create =>
    Scanned s₀ p m.i n ∧ m.pthreadAddNum = n ∧ s₀.pool.threads[m.i]? = some 0 ∧
      n < defaultThreadNum
  | _ => n = growth s₀

/-- The next slot of the scan counts if it is unset. -/
theorem Scanned.next {s₀ : State} {p p' : Pool} {i n tid : ℕ} (h : Scanned s₀ p i n)
    (hslot : s₀.pool.threads[i]? = some tid)
    (hrest : ∀ j, i + 1 ≤ j → p'.threads[j]? = p.threads[j]?) (hn : n < defaultThreadNum) :
    Scanned s₀ p' (i + 1) (n + if tid = 0 then 1 else 0) where
  grows := h.grows
  rest j hj := (hrest j hj).trans (h.rest j (by omega))
  number := by
    rw [List.take_add_one, hslot, List.countP_append, ← h.number]
    by_cases htid : tid = 0 <;> simp [htid]
  batch := by
    split <;> omega

/-- The scan has come to its end. -/
theorem Scanned.finished {s₀ : State} {p : Pool} {i n : ℕ} (h : Scanned s₀ p i n)
    (hend : s₀.pool.threads.length ≤ i ∨ defaultThreadNum ≤ n) : n = growth s₀ := by
  have hle : (s₀.pool.threads.take i).countP (fun tid => decide (tid = 0)) ≤ s₀.unsetSlots :=
    (List.take_sublist i _).countP_le
  have hnum := h.number
  have hbatch := h.batch
  rw [growth, if_pos h.grows]
  rcases hend with hlen | hfull
  · rw [List.take_of_length_le hlen] at hnum
    have hall : n = s₀.unsetSlots := hnum
    omega
  · omega

/-- What a statement of the manager does to the phase. -/
theorem adjustThread_phase {s₀ : State} {alive : Bool} {tid n : ℕ} {p p' : Pool} {m m' : Adjust}
    {e : Effect} (h : adjustThread alive tid p m = some (p', m', e)) (hpc : m.pc ≠ .sleep)
    (hlen : s₀.pool.threads.length = s₀.pool.pthreadMaxNum)
    (hfields : p.queueSize = s₀.pool.queueSize ∧ p.pthreadAliveNum = s₀.pool.pthreadAliveNum ∧
      p.pthreadMaxNum = s₀.pool.pthreadMaxNum ∧ p.shutdown = false)
    (halive : m.pc = .ifSlot → (alive = false → s₀.pool.threads[m.i]? = some 0))
    (hphase : TickPhase s₀ p m n) :
    TickPhase s₀ p' m' (n + if e = .create then 1 else 0) := by
  obtain ⟨pc, i, qs, al, ad, bu⟩ := m
  obtain ⟨hqs, hal, hmax, hrunning⟩ := hfields
  cases pc <;> simp only [adjustThread] at h
  case sleep => exact absurd rfl hpc
  case whileShutdown =>
    rw [hrunning] at h
    cases h
    exact hphase
  case ifBacklog =>
    obtain ⟨hsame, hqs', hal'⟩ := hphase
    simp only at hqs' hal'
    split at h
    · next htest =>
      cases h
      exact ⟨hsame, by omega, by omega⟩
    · next htest =>
      cases h
      have hno : ¬ Grows s₀ := by
        unfold Grows
        omega
      show _ = growth s₀
      rw [growth, if_neg hno]
      exact hsame.2
  case lockGrow =>
    obtain ⟨⟨hthreads, rfl⟩, hgrows⟩ := hphase
    split at h
    · cases h
      exact ⟨⟨hgrows, fun j _ => by rw [hthreads], by simp, Nat.zero_le _⟩, rfl⟩
    · cases h
  case forSlot =>
    obtain ⟨hscan, hadd⟩ := hphase
    simp only at hadd
    split at h
    · next htest =>
      cases h
      exact ⟨hscan, hadd, show i < _ by omega, show n < _ by omega⟩
    · next htest =>
      cases h
      have hgrows := hscan.grows.2
      have hend : s₀.pool.threads.length ≤ i ∨ defaultThreadNum ≤ n := by
        by_contra hnot
        exact htest ⟨by omega, by omega, by omega⟩
      exact hscan.finished hend
  case ifSlot =>
    obtain ⟨hscan, hadd, hi, hn⟩ := hphase
    simp only at hadd hi halive
    have hslot : p.threads[i]? = s₀.pool.threads[i]? := hscan.rest i le_rfl
    have hget : s₀.pool.threads[i]? = some s₀.pool.threads[i] := List.getElem?_eq_getElem hi
    have hhere : p.threads.getD i 0 = s₀.pool.threads[i] := by
      rw [List.getD, hslot, hget]
      rfl
    split at h
    · next htest =>
      cases h
      refine ⟨hscan, hadd, ?_, hn⟩
      rcases htest with hzero | hdead
      · rw [hget, ← hhere, hzero]
      · exact halive trivial hdead
    · next htest =>
      cases h
      rw [hhere, not_or] at htest
      have hnext : Scanned s₀ p _ _ := hscan.next hget (fun _ _ => rfl) hn
      rw [if_neg htest.1] at hnext
      exact ⟨hnext, hadd⟩
  case create =>
    obtain ⟨hscan, hadd, hzero, hn⟩ := hphase
    simp only at hadd hzero
    cases h
    refine ⟨hscan.next hzero (fun j hj => ?_) hn, congrArg (· + 1) hadd⟩
    have hne : i ≠ j := Nat.ne_of_lt hj
    exact List.getElem?_set_ne hne
  all_goals try split at h
  all_goals cases h
  case readSize => exact ⟨hphase, hqs⟩
  case readAlive => exact ⟨hphase.1, hphase.2, hal⟩
  all_goals exact hphase
/-! ## The tick as a whole -/

/-- The manager of a running pool does not return. -/
theorem adjustThread_managing {alive : Bool} {tid : ℕ} {p p' : Pool} {m m' : Adjust} {e : Effect}
    (h : adjustThread alive tid p m = some (p', m', e)) (hrunning : p.shutdown = false) :
    m'.pc ≠ .returned := by
  obtain ⟨pc, i, qs, al, ad, bu⟩ := m
  cases pc <;> simp only [adjustThread] at h
  case whileShutdown =>
    rw [hrunning] at h
    cases h
    simp
  all_goals try split at h
  all_goals cases h
  all_goals simp

/-- What holds during a tick that began in `s₀`. -/
structure TickInv (s₀ s : State) : Prop where
  fields : s.pool.queueSize = s₀.pool.queueSize ∧
    s.pool.pthreadAliveNum = s₀.pool.pthreadAliveNum ∧
    s.pool.pthreadMaxNum = s₀.pool.pthreadMaxNum ∧ s.pool.shutdown = false
  managing : s.adjust.pc ≠ .returned
  lock : s.pool.lock = if s.adjust.holds then some .adjust else none
  counter : s.pool.threadCounter = if (Local.manage s.adjust).counts then some .adjust else none
  live : ∀ tid, s₀.isLiveTid tid = true → s.isLiveTid tid = true
  workers : s₀.workers.length ≤ s.workers.length
  phase : TickPhase s₀ s.pool s.adjust (s.workers.length - s₀.workers.length)

theorem TickStart.inv {s : State} (h : TickStart s) : TickInv s s where
  fields := ⟨rfl, rfl, rfl, h.running⟩
  managing := by simp [h.pc]
  lock := by simp [h.lock, h.pc, Adjust.holds]
  counter := by simp [h.counter, h.pc, Local.counts]
  live _ htid := htid
  workers := le_rfl
  phase := by simp [TickPhase, h.pc]

/-- The effect of a statement of the manager leaves live workers live. -/
theorem WorkersAfter.isLive {ws ws' : List Worker} {e : Effect} (h : WorkersAfter ws e ws')
    {i : ℕ} (hlive : (ws[i]?).any Worker.isLive = true) :
    (ws'[i]?).any Worker.isLive = true := by
  rcases h.getElem? i with hsame | hwake | ⟨-, hi, -⟩
  · rw [hsame, hlive]
  · rw [hwake]
    simpa [Option.any_eq_true] using hlive
  · rw [hi, List.getElem?_eq_none le_rfl] at hlive
    cases hlive

theorem TickInv.next {s₀ s s' : State} (hs₀ : TickStart s₀) (h : TickInv s₀ s)
    (hstep : TickStep s s') : TickInv s₀ s' := by
  obtain ⟨hpc, answer, choice, hstep⟩ := hstep
  have hstepped := stepped_of_step hstep
  have hcount := hstepped.countP (q := fun _ => true) fun _ => rfl
  cases hstepped with
  | @adjust _ _ m p e _ hadj happ =>
    have hap := applied_of_apply happ
    have hpool : s'.pool = p := hap.pool
    have hadjust : s'.adjust = m := hap.adjust
    have hframe := adjustThread_frame hadj
    have hlen : s'.workers.length = s.workers.length + if e = .create then 1 else 0 := by
      rcases hcount with ⟨i, -, -, -, hl, -⟩ | ⟨-, hcount⟩
      · cases hl
      · simpa [creates, adjustThread_create_iff hadj] using hcount
    have hdead : s.adjust.pc = .ifSlot →
        pthreadIsAlive s (s.pool.threads.getD s.adjust.i 0) answer = false →
        s₀.pool.threads[s.adjust.i]? = some 0 := by
      intro hif hdead
      have hphase := h.phase
      simp only [TickPhase, hif] at hphase
      obtain ⟨hscan, -, hi, -⟩ := hphase
      have hget : s₀.pool.threads[s.adjust.i]? = some s₀.pool.threads[s.adjust.i] :=
        List.getElem?_eq_getElem hi
      have hhere : s.pool.threads.getD s.adjust.i 0 = s₀.pool.threads[s.adjust.i] := by
        rw [List.getD, hscan.rest _ le_rfl, hget]
        rfl
      rw [hget]
      refine congrArg some ((hs₀.slots _ (List.getElem_mem hi)).resolve_right fun hlive => ?_)
      rw [hhere, pthreadIsAlive, h.live _ hlive] at hdead
      cases hdead
    have hphase := adjustThread_phase hadj hpc hs₀.length h.fields hdead h.phase
    refine ⟨?_, ?_, ?_, ?_, fun tid htid => ?_, ?_, ?_⟩
    · rw [hpool, hframe]
      exact h.fields
    · rw [hadjust]
      exact adjustThread_managing hadj h.fields.2.2.2
    · rw [hpool, hadjust]
      exact (adjustThread_discipline hadj).alone h.lock
    · rw [hpool, hadjust]
      exact (adjustThread_counter hadj).alone h.counter
    · have hlive := h.live tid htid
      cases tid with
      | zero => cases hlive
      | succ i => exact hap.workers.isLive hlive
    · have hle := h.workers
      omega
    · have hle := h.workers
      rw [hpool, hadjust, hlen, Nat.sub_add_comm hle]
      exact hphase

theorem TickInv.of_tick {s₀ s : State} (hs₀ : TickStart s₀)
    (h : Relation.ReflTransGen TickStep s₀ s) : TickInv s₀ s := by
  induction h with
  | refl => exact hs₀.inv
  | tail _ hstep ih => exact ih.next hs₀ hstep

/-- A tick creates workers by the test of line 218, as many as there are unset slots, but at
most `DEFAULT_THREAD_NUM`. -/
theorem tick_created {s s' : State} (hs : TickStart s) (htick : Tick s s') :
    s'.workers.length = s.workers.length + growth s := by
  have hinv := TickInv.of_tick hs htick.1
  have hphase := hinv.phase
  simp only [TickPhase, htick.2] at hphase
  have hle := hinv.workers
  omega

/-! ## Every tick comes to its end -/

/-- An upper bound on the statements left to the `sleep`. -/
def Adjust.rank (max : ℕ) (m : Adjust) : ℕ :=
  match m.pc with
  | .whileShutdown => 27 + 3 * max
  | .lockSnapshot => 26 + 3 * max
  | .readSize => 25 + 3 * max
  | .readAlive => 24 + 3 * max
  | .unlockSnapshot => 23 + 3 * max
  | .ifBacklog => 22 + 3 * max
  | .lockGrow => 21 + 3 * max
  | .forSlot => 20 + 3 * (max - m.i)
  | .ifSlot => 19 + 3 * (max - m.i)
  | .create => 18 + 3 * (max - m.i)
  | .unlockGrow => 19
  | .lockCounter => 18
  | .readBusy => 17
  | .unlockCounter => 16
  | .ifIdle => 15
  | .lockRetire => 14
  | .setWaitExit => 13
  | .unlockRetire => 12
  | .signal => 1 + (defaultThreadNum - m.i)
  | .sleep | .returned => 0

theorem adjustThread_lowers {alive : Bool} {tid : ℕ} {p p' : Pool} {m m' : Adjust} {e : Effect}
    (h : adjustThread alive tid p m = some (p', m', e)) (hpc : m.pc ≠ .sleep)
    (hrunning : p.shutdown = false)
    (hi : m.pc = .ifSlot ∨ m.pc = .create → m.i < p.pthreadMaxNum) :
    m'.rank p.pthreadMaxNum < m.rank p.pthreadMaxNum := by
  obtain ⟨pc, i, qs, al, ad, bu⟩ := m
  cases pc <;> simp only [adjustThread] at h
  case sleep => exact absurd rfl hpc
  case whileShutdown =>
    rw [hrunning] at h
    cases h
    simp [Adjust.rank]
  case ifSlot | create =>
    have hlt : i < p.pthreadMaxNum := hi (by simp)
    try split at h
    all_goals cases h
    all_goals simp only [Adjust.rank]
    all_goals omega
  case ifBacklog =>
    split at h <;> cases h <;> simp only [Adjust.rank] <;> omega
  case lockGrow =>
    split at h <;> cases h
    simp only [Adjust.rank]
    omega
  case forSlot =>
    split at h <;> cases h <;> simp only [Adjust.rank] <;> omega
  case unlockRetire =>
    cases h
    simp only [Adjust.rank, defaultThreadNum]
    omega
  case signal =>
    split at h <;> cases h <;> simp only [Adjust.rank] <;> omega
  all_goals try split at h
  all_goals cases h
  all_goals simp [Adjust.rank]

/-- With both mutexes at its disposal the manager has a next statement. -/
theorem exists_adjustThread (alive : Bool) (tid : ℕ) {p : Pool} {m : Adjust}
    (hpc : m.pc ≠ .returned) (hlock : p.lock = if m.holds then some .adjust else none)
    (hcounter : p.threadCounter = if (Local.manage m).counts then some .adjust else none) :
    ∃ r, adjustThread alive tid p m = some r := by
  obtain ⟨pc, i, qs, al, ad, bu⟩ := m
  cases pc <;> simp only [adjustThread]
  case returned => exact absurd rfl hpc
  case lockSnapshot | lockGrow | lockRetire =>
    rw [if_pos (by simpa [Adjust.holds] using hlock)]
    exact ⟨_, rfl⟩
  case lockCounter =>
    rw [if_pos (by simpa [Local.counts] using hcounter)]
    exact ⟨_, rfl⟩
  all_goals try split
  all_goals exact ⟨_, rfl⟩

theorem TickInv.progress {s₀ s : State} (hs₀ : TickStart s₀) (h : TickInv s₀ s)
    (hpc : s.adjust.pc ≠ .sleep) : ∃ s', TickStep s s' ∧
      s'.adjust.rank s₀.pool.pthreadMaxNum < s.adjust.rank s₀.pool.pthreadMaxNum := by
  obtain ⟨⟨p, m, e⟩, hadj⟩ := exists_adjustThread
    (pthreadIsAlive s (s.pool.threads.getD s.adjust.i 0) false) (tidOf s.workers.length)
    h.managing h.lock h.counter
  obtain ⟨choice, s', happ⟩ := exists_apply { s with pool := p, adjust := m } e
  have hstep : step s (.adjust false choice) = some s' := by simp only [step, hadj, happ]
  have hscan : s.adjust.pc = .ifSlot ∨ s.adjust.pc = .create →
      s.adjust.i < s.pool.pthreadMaxNum := by
    have hphase := h.phase
    have hlen := hs₀.length
    have hmax := h.fields.2.2.1
    rintro (hpc | hpc)
    · simp only [TickPhase, hpc] at hphase
      omega
    · simp only [TickPhase, hpc] at hphase
      have hlt := (List.getElem?_eq_some_iff.mp hphase.2.2.1).1
      omega
  have hrank := adjustThread_lowers hadj hpc h.fields.2.2.2 hscan
  rw [h.fields.2.2.1] at hrank
  have hadjust : s'.adjust = m := (applied_of_apply happ).adjust
  exact ⟨s', ⟨hpc, false, choice, hstep⟩, hadjust ▸ hrank⟩

theorem exists_tick {s : State} (hs : TickStart s) : ∃ s', Tick s s' :=
  System.exists_end_of_rank (I := TickInv s) (fun _ _ hstep hinv => hinv.next hs hstep)
    (fun _ hinv hpc => hinv.progress hs hpc) hs.inv

/-! ## The rule -/

/-- The rule that the comment of line 217 states, for a tick from `s` that creates `n` workers. -/
structure GrowthRule (s : State) (n : ℕ) : Prop where
  creates : 0 < n ↔ 3 + s.pool.pthreadAliveNum < s.pool.queueSize ∧
    s.pool.pthreadAliveNum < s.pool.pthreadMaxNum
  number : 0 < n → (n : ℤ) =
    min (defaultThreadNum : ℤ) (s.pool.pthreadMaxNum - s.pool.pthreadAliveNum)

/-- The slots that are not taken by alive workers are unset. -/
theorem TickStart.unsetSlots {s : State} (h : TickStart s) :
    (s.unsetSlots : ℤ) = s.pool.pthreadMaxNum - s.pool.pthreadAliveNum := by
  have hsplit := s.pool.threads.length_eq_countP_add_countP fun tid => decide (tid = 0)
  have halive := h.alive
  rw [h.length] at hsplit
  simp only [decide_eq_true_eq, ne_eq] at hsplit halive
  unfold State.unsetSlots
  omega

theorem TickStart.growthRule_iff {s : State} (h : TickStart s) :
    GrowthRule s (growth s) ↔ ¬ (3 + s.pool.pthreadAliveNum < s.pool.queueSize ∧
      s.pool.pthreadAliveNum + 1 = s.pool.pthreadMaxNum) := by
  have hunset := h.unsetSlots
  have hten : defaultThreadNum = 10 := rfl
  by_cases hgrows : Grows s
  · have hcount : growth s = min defaultThreadNum s.unsetSlots := if_pos hgrows
    unfold Grows at hgrows
    refine ⟨fun _ => by omega, fun _ => ⟨?_, fun _ => ?_⟩⟩
    · rw [hcount]
      omega
    · rw [hcount]
      omega
  · have hcount : growth s = 0 := if_neg hgrows
    unfold Grows at hgrows
    rw [hcount]
    constructor
    · rintro ⟨hcreates, -⟩
      omega
    · intro hedge
      exact ⟨by omega, fun hpos => absurd hpos (lt_irrefl 0)⟩

/-- **When a tick grows the pool as its comment says.**  A tick that no other thread disturbs comes
to its end, and it follows the rule if and only if there is no backlog in a pool that is one
worker short of its maximum. -/
theorem growth_rule_iff (s : State) (hs : TickStart s) :
    (∃ s', Tick s s') ∧ ∀ s', Tick s s' → s.workers.length ≤ s'.workers.length ∧
      (GrowthRule s (s'.workers.length - s.workers.length) ↔
        ¬ (3 + s.pool.pthreadAliveNum < s.pool.queueSize ∧
          s.pool.pthreadAliveNum + 1 = s.pool.pthreadMaxNum)) := by
  refine ⟨exists_tick hs, fun s' htick => ?_⟩
  have hcreated := tick_created hs htick
  have hsub : s'.workers.length - s.workers.length = growth s := by omega
  rw [hsub]
  exact ⟨by omega, hs.growthRule_iff⟩

/-- A backlog of five tasks in a pool with one worker, which may have three. -/
theorem growth_rule_two_short : ∃ h s, (threadpool ⟨1, 3, 5⟩ .cleared).Run h s ∧
    ∃ s', Tick s s' ∧ GrowthRule s (s'.workers.length - s.workers.length) := by
  obtain ⟨h, s, hrun, hP⟩ := exists_run_of_schedule ⟨1, 3, 5⟩ .cleared backlogSchedule
    (fun _ s => decide (TickStart s) && decide (s.pool.pthreadAliveNum = 1) &&
      decide (s.pool.pthreadMaxNum = 3)) (by decide +kernel)
  simp only [Bool.and_eq_true, decide_eq_true_eq] at hP
  obtain ⟨⟨hs, halive⟩, hmax⟩ := hP
  obtain ⟨⟨s', htick⟩, hrule⟩ := growth_rule_iff s hs
  refine ⟨h, s, hrun, s', htick, (hrule s' htick).2.2 ?_⟩
  omega

/-- With the same backlog a pool that may have two workers stays at one. -/
theorem growth_rule_one_short : ¬ ∀ (s s' : State), TickStart s → Tick s s' →
    GrowthRule s (s'.workers.length - s.workers.length) := by
  intro hclaim
  obtain ⟨h, s, hrun, hP⟩ := exists_run_of_schedule ⟨1, 2, 5⟩ .cleared backlogSchedule
    (fun _ s => decide (TickStart s) && decide (s.pool.pthreadAliveNum = 1) &&
      decide (s.pool.queueSize = 5) && decide (s.pool.pthreadMaxNum = 2)) (by decide +kernel)
  simp only [Bool.and_eq_true, decide_eq_true_eq] at hP
  obtain ⟨⟨⟨hs, halive⟩, hsize⟩, hmax⟩ := hP
  obtain ⟨s', htick⟩ := exists_tick hs
  have hcreated := tick_created hs htick
  have hnone : growth s = 0 := if_neg (by unfold Grows; omega)
  have hcreates := (hclaim s s' hs htick).creates
  omega

end LinuxExercise.ThreadPool
