import Mathlib.Tactic

/-!
# Labelled systems and the histories of their runs

A `System` is a set of initial states and a labelled step relation.  A run is carried by its
**history**, the list of its steps with the state before and the state after each of them:
`M.Run h s` says that `h` is the history of a run of `M` that ends in `s`.  Every prefix of a
run is a run (`Run.of_mem`), so a statement about the last state of every run is a statement
about every state that a run reaches, and a condition on the steps of a run is a condition on
the members of its history.

Four induction rules are what the rest of the development uses.

* `Run.invariant`: a predicate on states that holds initially and is kept by every step.
* `Run.invariant_on`: the same for the runs that stay inside a set of states that cannot be
  re-entered (before a flag is raised, before a defect is reached).
* `Run.ledger`: a predicate that ties the state to the history, for counters.
* `Run.after`: a predicate that ties the state to what has happened since the end of a shorter
  run.

A deterministic executable step function `σ → ℓ → Option σ` gives a system (`System.ofStep`)
whose runs on explicit schedules are computed by `exec`.
-/

namespace LinuxExercise

/-- A labelled transition system. -/
structure System (σ ℓ : Type*) where
  /-- The states a run may start in. -/
  init : σ → Prop
  /-- `step s l s'`: the step labelled `l` leads from `s` to `s'`. -/
  step : σ → ℓ → σ → Prop

/-- One step of a run, with the states before and after it. -/
structure Event (σ ℓ : Type*) where
  pre : σ
  label : ℓ
  post : σ

namespace System

variable {σ ℓ : Type*} (M : System σ ℓ)

/-- `M.Run h s`: a run of `M` with history `h` (earliest step first) ends in `s`. -/
inductive Run : List (Event σ ℓ) → σ → Prop
  | start {s : σ} : M.init s → Run [] s
  | step {h : List (Event σ ℓ)} {s s' : σ} {l : ℓ} :
      Run h s → M.step s l s' → Run (h ++ [⟨s, l, s'⟩]) s'

/-- The states that some run reaches. -/
def Reachable (s : σ) : Prop := ∃ h, M.Run h s

variable {M}

/-! ## Induction over runs -/

/-- The invariant rule: the step obligation may use that the state before is reachable. -/
theorem Run.invariant {I : σ → Prop} (hinit : ∀ s, M.init s → I s)
    (hstep : ∀ s l s', M.Reachable s → M.step s l s' → I s → I s')
    {h : List (Event σ ℓ)} {s : σ} (hrun : M.Run h s) : I s := by
  induction hrun with
  | start hs => exact hinit _ hs
  | step hr hs ih => exact hstep _ _ _ ⟨_, hr⟩ hs ih

/-- The invariant rule inside a set `C` of states that no step re-enters. -/
theorem Run.invariant_on {C I : σ → Prop}
    (hback : ∀ s l s', M.step s l s' → C s' → C s)
    (hinit : ∀ s, M.init s → C s → I s)
    (hstep : ∀ s l s', M.Reachable s → M.step s l s' → C s → C s' → I s → I s')
    {h : List (Event σ ℓ)} {s : σ} (hrun : M.Run h s) : C s → I s := by
  induction hrun with
  | start hs => exact hinit _ hs
  | step hr hs ih =>
    intro hc
    have hc₀ := hback _ _ _ hs hc
    exact hstep _ _ _ ⟨_, hr⟩ hs hc₀ hc (ih hc₀)

/-- The rule for predicates that tie the state to the history. -/
theorem Run.ledger {J : List (Event σ ℓ) → σ → Prop} (hinit : ∀ s, M.init s → J [] s)
    (hstep : ∀ h s l s', M.Run h s → M.step s l s' → J h s → J (h ++ [⟨s, l, s'⟩]) s')
    {h : List (Event σ ℓ)} {s : σ} (hrun : M.Run h s) : J h s := by
  induction hrun with
  | start hs => exact hinit _ hs
  | step hr hs ih => exact hstep _ _ _ _ hr hs ih

/-! ## Prefixes -/

/-- Each member of a history is a step taken from a state that a shorter run reaches. -/
theorem Run.of_mem {h : List (Event σ ℓ)} {s : σ} (hrun : M.Run h s) {e : Event σ ℓ}
    (he : e ∈ h) : ∃ h₀, h₀ ++ [e] <+: h ∧ M.Run h₀ e.pre ∧ M.step e.pre e.label e.post := by
  induction hrun with
  | start => cases he
  | @step h s s' l hr hs ih =>
    rcases List.mem_append.mp he with hmem | hlast
    · obtain ⟨h₀, hpre, hrest⟩ := ih hmem
      exact ⟨h₀, hpre.trans (List.prefix_append _ _), hrest⟩
    · obtain rfl := List.mem_singleton.mp hlast
      exact ⟨h, List.prefix_rfl, hr, hs⟩

/-- A set of states that no step leaves holds at the end of a run as soon as it holds after
one of its steps. -/
theorem Run.stable {C : σ → Prop} (hkeep : ∀ s l s', M.step s l s' → C s → C s')
    {h : List (Event σ ℓ)} {s : σ} (hrun : M.Run h s) {e : Event σ ℓ} (he : e ∈ h)
    (hc : C e.post) : C s := by
  induction hrun with
  | start => cases he
  | step hr hs ih =>
    rcases List.mem_append.mp he with hmem | hlast
    · exact hkeep _ _ _ hs (ih hmem)
    · obtain rfl := List.mem_singleton.mp hlast
      exact hc

/-! ## Continuations -/

/-- What the last step of a history says about its run. -/
theorem Run.of_snoc {h : List (Event σ ℓ)} {e : Event σ ℓ} {s : σ} (hrun : M.Run (h ++ [e]) s) :
    M.Run h e.pre ∧ M.step e.pre e.label e.post ∧ s = e.post := by
  generalize hh : h ++ [e] = h' at hrun
  cases hrun with
  | start => simp at hh
  | step hr hs =>
    obtain ⟨rfl, he⟩ := List.append_inj' hh rfl
    obtain rfl := List.singleton_inj.mp he
    exact ⟨hr, hs, rfl⟩

/-- The rule for what holds in every continuation of a run: `J h' s` ties the state to the
steps made since the end of `h`. -/
theorem Run.after {J : List (Event σ ℓ) → σ → Prop} {h : List (Event σ ℓ)}
    (hinit : ∀ s, M.Run h s → J [] s)
    (hstep : ∀ h' s l s', M.Run (h ++ h') s → M.step s l s' → J h' s → J (h' ++ [⟨s, l, s'⟩]) s')
    {h' : List (Event σ ℓ)} {s : σ} (hrun : M.Run (h ++ h') s) : J h' s := by
  induction h' using List.reverseRecOn generalizing s with
  | nil => exact hinit s (by rwa [List.append_nil] at hrun)
  | append_singleton h' e ih =>
    rw [← List.append_assoc] at hrun
    obtain ⟨hr, hs, rfl⟩ := hrun.of_snoc
    exact hstep h' _ _ _ hr hs (ih hr)

variable (M) in
/-- Some steps lead from one state to the other. -/
abbrev Leads : σ → σ → Prop := Relation.ReflTransGen fun s s' => ∃ l, M.step s l s'

/-- A run can be continued along any steps from its last state. -/
theorem Run.leads {h : List (Event σ ℓ)} {s s' : σ} (hrun : M.Run h s) (hlead : M.Leads s s') :
    ∃ h', M.Run (h ++ h') s' := by
  induction hlead with
  | refl => exact ⟨[], by rwa [List.append_nil]⟩
  | tail _ hs ih =>
    obtain ⟨h', hr⟩ := ih
    obtain ⟨l, hl⟩ := hs
    exact ⟨h' ++ [⟨_, l, _⟩], by rw [← List.append_assoc]; exact hr.step hl⟩

/-! ## Conditions on the steps of a run -/

/-- Every step of the history satisfies `P`, which also sees what came before it. -/
def EachStep (P : List (Event σ ℓ) → Event σ ℓ → Prop) (h : List (Event σ ℓ)) : Prop :=
  ∀ h₀ e, h₀ ++ [e] <+: h → P h₀ e

theorem eachStep_nil (P : List (Event σ ℓ) → Event σ ℓ → Prop) : EachStep P [] := by
  intro h₀ e hpre
  simpa using hpre.length_le

theorem eachStep_snoc {P : List (Event σ ℓ) → Event σ ℓ → Prop} {h : List (Event σ ℓ)}
    {e : Event σ ℓ} : EachStep P (h ++ [e]) ↔ EachStep P h ∧ P h e := by
  constructor
  · intro hall
    exact ⟨fun h₀ e₀ hpre => hall h₀ e₀ (hpre.trans (List.prefix_append _ _)),
      hall h e List.prefix_rfl⟩
  · rintro ⟨hold, hlast⟩ h₀ e₀ hpre
    rcases List.prefix_concat_iff.mp hpre with heq | hshort
    · obtain ⟨rfl, he⟩ := List.append_inj' heq rfl
      obtain rfl := List.singleton_inj.mp he
      exact hlast
    · exact hold h₀ e₀ hshort

theorem eachStep_iff_take {P : List (Event σ ℓ) → Event σ ℓ → Prop} {h : List (Event σ ℓ)} :
    EachStep P h ↔ ∀ (i : ℕ) (hi : i < h.length), P (h.take i) (h.get ⟨i, hi⟩) := by
  constructor
  · intro hall i hi
    apply hall _ _
    rw [List.get_eq_getElem, ← List.take_succ_eq_append_getElem hi]
    exact List.take_prefix _ _
  · rintro htake h₀ e ⟨rest, rfl⟩
    have hlast := htake h₀.length (by simp)
    simpa using hlast

instance (P : List (Event σ ℓ) → Event σ ℓ → Prop) [∀ h e, Decidable (P h e)]
    (h : List (Event σ ℓ)) : Decidable (EachStep P h) :=
  decidable_of_iff _ eachStep_iff_take.symm

/-! ## Progress by rank -/

/-- As long as the goal is not reached some step lowers the rank, so some steps reach it. -/
theorem exists_end_of_rank {r : σ → σ → Prop} {I goal : σ → Prop} {rank : σ → ℕ}
    (hkeep : ∀ s s', r s s' → I s → I s')
    (hprogress : ∀ s, I s → ¬ goal s → ∃ s', r s s' ∧ rank s' < rank s) {s : σ} (hs : I s) :
    ∃ s', Relation.ReflTransGen r s s' ∧ goal s' := by
  induction hn : rank s using Nat.strongRecOn generalizing s with
  | ind n ih =>
    by_cases hgoal : goal s
    · exact ⟨s, .refl, hgoal⟩
    · obtain ⟨s₁, hstep, hlt⟩ := hprogress s hs hgoal
      obtain ⟨s', hrest, hend⟩ := ih _ (hn ▸ hlt) (hkeep s s₁ hstep hs) rfl
      exact ⟨s', .head hstep hrest, hend⟩

/-! ## Executable systems -/

/-- The system of a step function: `init` is the only initial state. -/
def ofStep (init : σ) (f : σ → ℓ → Option σ) : System σ ℓ where
  init s := s = init
  step s l s' := f s l = some s'

/-- Run a schedule from `s`, appending its steps to the history `h`. -/
def exec (f : σ → ℓ → Option σ) (h : List (Event σ ℓ)) (s : σ) :
    List ℓ → Option (List (Event σ ℓ) × σ)
  | [] => some (h, s)
  | l :: ls =>
    match f s l with
    | none => none
    | some s' => exec f (h ++ [⟨s, l, s'⟩]) s' ls

/-- The state in which a run ends is determined by its history. -/
theorem Run.end_unique {init : σ} {f : σ → ℓ → Option σ} {h : List (Event σ ℓ)} {s s' : σ}
    (hrun : (ofStep init f).Run h s) (hrun' : (ofStep init f).Run h s') : s = s' := by
  cases hrun with
  | start hs =>
    generalize hh : ([] : List (Event σ ℓ)) = h at hrun'
    cases hrun' with
    | start hs' => exact Eq.trans hs (Eq.symm hs')
    | step => simp at hh
  | step _ _ => exact hrun'.of_snoc.2.2.symm

theorem Run.exec {init : σ} {f : σ → ℓ → Option σ} {ls : List ℓ} {h h' : List (Event σ ℓ)}
    {s s' : σ} (hrun : (ofStep init f).Run h s) (hexec : exec f h s ls = some (h', s')) :
    (ofStep init f).Run h' s' := by
  induction ls generalizing h s with
  | nil =>
    obtain ⟨rfl, rfl⟩ := Prod.mk.injEq .. ▸ Option.some.inj hexec
    exact hrun
  | cons l ls ih =>
    unfold System.exec at hexec
    split at hexec
    · cases hexec
    · next s₁ hs => exact ih (hrun.step hs) hexec

/-- A schedule whose execution satisfies a decidable test gives a run that satisfies it. -/
theorem exists_run_of_exec (init : σ) (f : σ → ℓ → Option σ) (ls : List ℓ)
    (P : List (Event σ ℓ) → σ → Bool)
    (hP : (exec f [] init ls).any (fun r => P r.1 r.2) = true) :
    ∃ h s, (ofStep init f).Run h s ∧ P h s = true := by
  cases hexec : exec f [] init ls with
  | none => rw [hexec] at hP; cases hP
  | some r => exact ⟨r.1, r.2, (Run.start rfl).exec hexec, by simpa [hexec] using hP⟩

end System

end LinuxExercise
