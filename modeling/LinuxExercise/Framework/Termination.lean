import LinuxExercise.Framework.System

/-!
# Completion

A system *completes* from a state when the steps of some kind can only be taken finitely often
from there, in whatever order, and the goal holds where none of them is left
(`System.Completes`).  It says more than that the goal can be reached: no scheduler that goes
on taking steps of this kind can avoid it.

`completes_of_rank` is the rule.  Every such step lowers a rank, which bounds their number, and
while the goal does not hold yet one of them can be taken.
-/

namespace LinuxExercise.System

variable {σ ℓ : Type*} {M : System σ ℓ}

/-- `M.Continues Q s h' s'`: the steps `h'`, all of the kind `Q`, lead from `s` to `s'`. -/
inductive Continues (M : System σ ℓ) (Q : Event σ ℓ → Prop) (s : σ) :
    List (Event σ ℓ) → σ → Prop
  | refl : Continues M Q s [] s
  | tail {h' : List (Event σ ℓ)} {s₁ s₂ : σ} {l : ℓ} : Continues M Q s h' s₁ →
      M.step s₁ l s₂ → Q ⟨s₁, l, s₂⟩ → Continues M Q s (h' ++ [⟨s₁, l, s₂⟩]) s₂

/-- No step of the kind `Q` can be taken. -/
def Stuck (M : System σ ℓ) (Q : Event σ ℓ → Prop) (s : σ) : Prop :=
  ∀ l s', M.step s l s' → ¬ Q ⟨s, l, s'⟩

/-- From `s` the steps of the kind `Q` lead to the goal `G`, which may speak of the steps. -/
structure Completes (M : System σ ℓ) (Q : Event σ ℓ → Prop) (G : List (Event σ ℓ) → σ → Prop)
    (s : σ) : Prop where
  /-- There is a bound on how many of them can be taken. -/
  bounded : ∃ n, ∀ h' s', M.Continues Q s h' s' → h'.length ≤ n
  /-- Where none is left the goal holds. -/
  maximal : ∀ h' s', M.Continues Q s h' s' → M.Stuck Q s' → G h' s'
  /-- They can be taken until none is left. -/
  possible : ∃ h' s', M.Continues Q s h' s' ∧ M.Stuck Q s'

variable {Q : Event σ ℓ → Prop}

theorem Continues.run {h h' : List (Event σ ℓ)} {s s' : σ} (hcont : M.Continues Q s h' s')
    (hrun : M.Run h s) : M.Run (h ++ h') s' := by
  induction hcont with
  | refl => rwa [List.append_nil]
  | tail _ hs _ ih =>
    rw [← List.append_assoc]
    exact ih.step hs

theorem Continues.append {h₁ h₂ : List (Event σ ℓ)} {s s₁ s₂ : σ}
    (hcont : M.Continues Q s h₁ s₁) (hrest : M.Continues Q s₁ h₂ s₂) :
    M.Continues Q s (h₁ ++ h₂) s₂ := by
  induction hrest with
  | refl => rwa [List.append_nil]
  | tail _ hs hQ ih =>
    rw [← List.append_assoc]
    exact ih.tail hs hQ

theorem Continues.leads {h' : List (Event σ ℓ)} {s s' : σ} (hcont : M.Continues Q s h' s') :
    M.Leads s s' := by
  induction hcont with
  | refl => exact .refl
  | tail _ hs _ ih => exact ih.tail ⟨_, hs⟩

/-- A predicate that the steps of the kind `Q` keep. -/
theorem Continues.invariant {I : σ → Prop}
    (hkeep : ∀ s l s', M.step s l s' → Q ⟨s, l, s'⟩ → I s → I s')
    {h' : List (Event σ ℓ)} {s s' : σ} (hcont : M.Continues Q s h' s') (hs : I s) : I s' := by
  induction hcont with
  | refl => exact hs
  | tail _ hstep hQ ih => exact hkeep _ _ _ hstep hQ ih

/-- The steps are of the kind `Q`. -/
theorem Continues.forall_mem {h' : List (Event σ ℓ)} {s s' : σ} (hcont : M.Continues Q s h' s') :
    ∀ e ∈ h', Q e := by
  induction hcont with
  | refl => simp
  | tail _ _ hQ ih => exact List.forall_mem_append.mpr ⟨ih, List.forall_mem_singleton.mpr hQ⟩

theorem Continues.mono {P : Event σ ℓ → Prop} (hP : ∀ e, Q e → P e) {h' : List (Event σ ℓ)}
    {s s' : σ} (hcont : M.Continues Q s h' s') : M.Continues P s h' s' := by
  induction hcont with
  | refl => exact .refl
  | tail _ hstep hQ ih => exact ih.tail hstep (hP _ hQ)

/-- Steps that lower a rank are bounded by it. -/
theorem Continues.length_add_rank_le {I : σ → Prop} {rank : σ → ℕ}
    (hkeep : ∀ s l s', M.step s l s' → Q ⟨s, l, s'⟩ → I s → I s')
    (hlower : ∀ s l s', M.step s l s' → Q ⟨s, l, s'⟩ → I s → rank s' < rank s)
    {h' : List (Event σ ℓ)} {s s' : σ} (hcont : M.Continues Q s h' s') (hs : I s) :
    h'.length + rank s' ≤ rank s := by
  induction hcont with
  | refl => simp
  | tail hold hstep hQ ih =>
    have hlt := hlower _ _ _ hstep hQ (hold.invariant hkeep hs)
    rw [List.length_append, List.length_singleton]
    omega

/-- Steps that lower a rank can be taken until none is left. -/
theorem exists_stuck_of_rank (rank : σ → ℕ) {I : σ → Prop}
    (hkeep : ∀ s l s', M.step s l s' → Q ⟨s, l, s'⟩ → I s → I s')
    (hlower : ∀ s l s', M.step s l s' → Q ⟨s, l, s'⟩ → I s → rank s' < rank s) {s : σ}
    (hs : I s) : ∃ h' s', M.Continues Q s h' s' ∧ M.Stuck Q s' := by
  induction hn : rank s using Nat.strongRecOn generalizing s with
  | ind n ih =>
    by_cases hstuck : M.Stuck Q s
    · exact ⟨[], s, .refl, hstuck⟩
    · simp only [Stuck, not_forall, not_not] at hstuck
      obtain ⟨l, s₁, hstep, hQ⟩ := hstuck
      obtain ⟨h', s', hcont, hend⟩ :=
        ih _ (hn ▸ hlower _ _ _ hstep hQ hs) (hkeep _ _ _ hstep hQ hs) rfl
      exact ⟨_, s', (Continues.refl.tail hstep hQ).append hcont, hend⟩

/-- **The completion rule.**  Every step of the kind `Q` keeps `I` and lowers the rank, and the
goal holds where `I` does and no such step is left. -/
theorem completes_of_rank (rank : σ → ℕ) {I : σ → Prop} {G : List (Event σ ℓ) → σ → Prop}
    (hkeep : ∀ s l s', M.step s l s' → Q ⟨s, l, s'⟩ → I s → I s')
    (hlower : ∀ s l s', M.step s l s' → Q ⟨s, l, s'⟩ → I s → rank s' < rank s) {s : σ}
    (hgoal : ∀ h' s', M.Continues Q s h' s' → I s' → M.Stuck Q s' → G h' s') (hs : I s) :
    M.Completes Q G s where
  bounded := by
    refine ⟨rank s, fun h' s' hcont => ?_⟩
    have hle := hcont.length_add_rank_le hkeep hlower hs
    omega
  maximal h' s' hcont hstuck := hgoal h' s' hcont (hcont.invariant hkeep hs) hstuck
  possible := exists_stuck_of_rank rank hkeep hlower hs

end LinuxExercise.System
