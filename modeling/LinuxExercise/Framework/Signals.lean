import Mathlib.Data.Finset.Insert
import Mathlib.Tactic

/-!
# Signals

The part of a process that signals are about: the signals it blocks, those that are pending, what
it does with each of them, and the handlers that are running.  A handler runs with more signals
blocked; when it returns, the mask is what its frame says.  That is the mask of the code it has
interrupted, or, if that was a wait under a temporary mask, the one from before the wait.

`base` is the mask that the interrupted code will find again, and `Blocks sig` says that neither
the code nor any running handler can be interrupted by `sig`.  No delivery of another signal and
no return of a handler changes either of them.
-/

namespace LinuxExercise

/-- What a process does when a signal is delivered; `η` names the handlers. -/
inductive Disposition (η : Type*)
  /-- The default: the process is terminated. -/
  | dfl
  | ign
  | handle (f : η)
  deriving DecidableEq, Repr

/-- The action for a signal. -/
structure Action (σ η : Type*) where
  disposition : Disposition η
  /-- The signals that are blocked while the handler runs, the signal itself included unless the
  action says otherwise. -/
  blocks : Finset σ
  /-- The disposition is reset to the default when a handler is called. -/
  oneShot : Bool

/-- The action after its handler has been called. -/
def Action.taken {σ η : Type*} (a : Action σ η) : Action σ η :=
  { a with disposition := if a.oneShot then .dfl else a.disposition }

structure Signals (σ η : Type*) where
  mask : Finset σ
  pending : Finset σ
  action : σ → Action σ η
  /-- The masks that the running handlers restore, the innermost first. -/
  frames : List (Finset σ)

namespace Signals

variable {σ η : Type*}

/-! ## What the interrupted code finds -/

/-- The mask when all running handlers have returned. -/
def base (s : Signals σ η) : Finset σ := s.frames.getLast?.getD s.mask

/-- `sig` is blocked now, and will be after the return of any running handler. -/
def Blocks (sig : σ) (s : Signals σ η) : Prop := ∀ m ∈ s.mask :: s.frames, sig ∈ m

theorem base_of_nil {s : Signals σ η} (h : s.frames = []) : s.base = s.mask := by
  rw [base, h]
  rfl

theorem Blocks.mem_mask {sig : σ} {s : Signals σ η} (h : s.Blocks sig) : sig ∈ s.mask :=
  h s.mask List.mem_cons_self

theorem blocks_of_nil {sig : σ} {s : Signals σ η} (h : s.frames = []) :
    s.Blocks sig ↔ sig ∈ s.mask := by
  rw [Blocks, h, List.forall_mem_singleton]

/-- The mask is set to `m`. -/
def setMask (m : Finset σ) (s : Signals σ η) : Signals σ η := { s with mask := m }

theorem base_setMask {s : Signals σ η} (h : s.frames = []) (m : Finset σ) :
    (s.setMask m).base = m :=
  base_of_nil h

theorem blocks_setMask {sig : σ} {s : Signals σ η} (h : s.frames = []) {m : Finset σ} :
    (s.setMask m).Blocks sig ↔ sig ∈ m :=
  blocks_of_nil h

/-- The innermost handler returns. -/
def handlerReturn (s : Signals σ η) : Option (Signals σ η) :=
  match s.frames with
  | [] => none
  | m :: rest => some { s with mask := m, frames := rest }

theorem handlerReturn_cases {s s' : Signals σ η} (h : s.handlerReturn = some s') :
    ∃ m rest, s.frames = m :: rest ∧ s' = { s with mask := m, frames := rest } := by
  unfold handlerReturn at h
  cases hframes : s.frames with
  | nil => simp [hframes] at h
  | cons m rest =>
    simp only [hframes, Option.some.injEq] at h
    exact ⟨m, rest, rfl, h.symm⟩

theorem handlerReturn_base {s s' : Signals σ η} (h : s.handlerReturn = some s') :
    s'.base = s.base := by
  obtain ⟨m, rest, hframes, rfl⟩ := handlerReturn_cases h
  rw [base, base, hframes, List.getLast?_cons]
  rfl

theorem Blocks.handlerReturn {sig : σ} {s s' : Signals σ η} (hblocks : s.Blocks sig)
    (h : s.handlerReturn = some s') : s'.Blocks sig := by
  obtain ⟨m, rest, hframes, rfl⟩ := handlerReturn_cases h
  rw [Blocks, hframes] at hblocks
  exact (List.forall_mem_cons.mp hblocks).2

/-! ## Calls and events -/

variable [DecidableEq σ]

/-- The action for `sig` is set to `a`.  A pending signal that is to be ignored is discarded. -/
def sigaction (sig : σ) (a : Action σ η) (s : Signals σ η) : Signals σ η :=
  { s with
    action := Function.update s.action sig a
    pending := match a.disposition with
      | .ign => s.pending.erase sig
      | _ => s.pending }

/-- `sig` is generated: it is pending, unless it is ignored at once. -/
def generate (sig : σ) (s : Signals σ η) : Signals σ η :=
  match (s.action sig).disposition with
  | .ign => if sig ∈ s.mask then { s with pending := insert sig s.pending } else s
  | _ => { s with pending := insert sig s.pending }

/-- `sig` is delivered, if it is pending and not blocked: what is done about it, and the state
then.  A handler that is called restores `resume` when it returns. -/
def deliver (sig : σ) (resume : Finset σ) (s : Signals σ η) :
    Option (Disposition η × Signals σ η) :=
  let a := s.action sig
  if sig ∈ s.pending ∧ sig ∉ s.mask then
    match a.disposition with
    | .handle f => some (.handle f,
      { mask := s.mask ∪ a.blocks
        pending := s.pending.erase sig
        action := Function.update s.action sig a.taken
        frames := resume :: s.frames })
    | d => some (d, { s with pending := s.pending.erase sig })
  else none

/-- No signal is waiting to be delivered. -/
def Quiet (s : Signals σ η) : Prop := ∀ sig ∈ s.pending, sig ∈ s.mask

instance (s : Signals σ η) : Decidable s.Quiet :=
  inferInstanceAs (Decidable (∀ sig ∈ s.pending, sig ∈ s.mask))

theorem sigaction_action (sig : σ) (a : Action σ η) (s : Signals σ η) :
    (s.sigaction sig a).action sig = a :=
  Function.update_self ..

/-- A pending signal outlives a change of its action, unless it is to be ignored. -/
theorem mem_pending_sigaction {sig : σ} {a : Action σ η} {s : Signals σ η} :
    sig ∈ (s.sigaction sig a).pending ↔ sig ∈ s.pending ∧ a.disposition ≠ .ign := by
  unfold sigaction
  cases a.disposition with
  | ign => simp
  | dfl | handle => simp

/-- What a delivery can be. -/
theorem deliver_cases {sig : σ} {resume : Finset σ} {s s' : Signals σ η} {d : Disposition η}
    (h : s.deliver sig resume = some (d, s')) :
    sig ∈ s.pending ∧ sig ∉ s.mask ∧ d = (s.action sig).disposition ∧
      s'.pending = s.pending.erase sig ∧
      ((∃ f, d = .handle f ∧ s'.mask = s.mask ∪ (s.action sig).blocks ∧
          s'.action = Function.update s.action sig (s.action sig).taken ∧
          s'.frames = resume :: s.frames) ∨
        ((∀ f, d ≠ .handle f) ∧ s'.mask = s.mask ∧ s'.action = s.action ∧
          s'.frames = s.frames)) := by
  unfold deliver at h
  by_cases hcond : sig ∈ s.pending ∧ sig ∉ s.mask
  · rw [if_pos hcond] at h
    cases hd : (s.action sig).disposition with
    | handle f =>
      simp only [hd, Option.some.injEq, Prod.mk.injEq] at h
      obtain ⟨rfl, rfl⟩ := h
      exact ⟨hcond.1, hcond.2, rfl, rfl, .inl ⟨f, rfl, rfl, rfl, rfl⟩⟩
    | dfl | ign =>
      simp only [hd, Option.some.injEq, Prod.mk.injEq] at h
      obtain ⟨rfl, rfl⟩ := h
      exact ⟨hcond.1, hcond.2, rfl, rfl, .inr ⟨by simp, rfl, rfl, rfl⟩⟩
  · rw [if_neg hcond] at h
    cases h

/-- Running code is interrupted under its own mask, and will find it again. -/
theorem deliver_base {sig : σ} {s s' : Signals σ η} {d : Disposition η}
    (h : s.deliver sig s.mask = some (d, s')) : s'.base = s.base := by
  obtain ⟨-, -, -, -, ⟨f, -, -, -, hframes⟩ | ⟨-, hmask, -, hframes⟩⟩ := deliver_cases h
  · rw [base, base, hframes, List.getLast?_cons]
    rfl
  · rw [base, base, hframes, hmask]

/-- No delivery makes it possible to deliver a signal that is blocked throughout. -/
theorem Blocks.deliver {sig other : σ} {s s' : Signals σ η} {d : Disposition η}
    (hblocks : s.Blocks sig) (h : s.deliver other s.mask = some (d, s')) : s'.Blocks sig := by
  obtain ⟨-, -, -, -, ⟨f, -, hmask, -, hframes⟩ | ⟨-, hmask, -, hframes⟩⟩ := deliver_cases h
  · rw [Blocks, hmask, hframes]
    exact List.forall_mem_cons.mpr ⟨Finset.mem_union_left _ hblocks.mem_mask, hblocks⟩
  · rw [Blocks, hmask, hframes]
    exact hblocks

/-- A generated signal changes nothing but what is pending, and there only itself. -/
theorem generate_eq (sig : σ) (s : Signals σ η) :
    ∃ pending, s.generate sig = { s with pending := pending } ∧
      (∀ other ∈ s.pending, other ∈ pending) ∧
      ∀ other ≠ sig, other ∈ pending ↔ other ∈ s.pending := by
  have hkeep : ∀ other ∈ s.pending, other ∈ insert sig s.pending := fun _ =>
    Finset.mem_insert_of_mem
  have hinsert : ∀ other ≠ sig, other ∈ insert sig s.pending ↔ other ∈ s.pending :=
    fun other hne => Finset.mem_insert.trans (or_iff_right hne)
  unfold generate
  cases (s.action sig).disposition with
  | ign =>
    by_cases hmask : sig ∈ s.mask
    · exact ⟨_, if_pos hmask, hkeep, hinsert⟩
    · exact ⟨_, if_neg hmask, fun _ => id, fun _ _ => Iff.rfl⟩
  | dfl | handle => exact ⟨_, rfl, hkeep, hinsert⟩

theorem mem_pending_generate {sig other : σ} {s : Signals σ η} (h : sig ∈ s.pending) :
    sig ∈ (s.generate other).pending := by
  obtain ⟨pending, heq, hkeep, -⟩ := generate_eq other s
  rw [heq]
  exact hkeep sig h

/-- A signal for which there is a handler becomes pending. -/
theorem generate_handled {sig : σ} {s : Signals σ η} {f : η}
    (h : (s.action sig).disposition = .handle f) :
    s.generate sig = { s with pending := insert sig s.pending } := by
  rw [generate, h]

/-- A blocked signal becomes pending, even if it is ignored. -/
theorem generate_blocked {sig : σ} {s : Signals σ η} (h : sig ∈ s.mask) :
    s.generate sig = { s with pending := insert sig s.pending } := by
  unfold generate
  cases (s.action sig).disposition with
  | ign => exact if_pos h
  | dfl | handle => rfl

end Signals

end LinuxExercise
