import Mathlib.Tactic

/-!
# The monitor rule for a mutex

A mutex protects a resource.  Threads carry a local state; `Monitor.holds` says in which local
states a thread holds the mutex, `Monitor.free` is what the resource satisfies while nobody
holds it, and `Monitor.inside x` is what it satisfies while a thread holds it in local state
`x`.  `Monitor.Inv` states mutual exclusion together with the two assertions, and `Inv.move`
is the rule: a step of one thread that is a `Move` keeps the invariant.

A `Move` has four forms.  A thread *acquires* a free mutex, *releases* the mutex it holds, or
takes a step *within* its critical section; each of these has one obligation about the
assertions of the acting thread.  A step *outside* the critical section must be harmless to
whoever holds the mutex: every assertion is stable under it.  A step that only wakes or adds
threads is covered by `Inv.passive`.
-/

namespace LinuxExercise

/-- A mutex: the local states that hold it and the assertions on the resource it protects. -/
structure Monitor (α ρ : Type*) where
  /-- The local states in which a thread holds the mutex. -/
  holds : α → Bool
  /-- The resource while the mutex is free. -/
  free : ρ → Prop
  /-- The resource while the mutex is held in a given local state. -/
  inside : α → ρ → Prop

namespace Monitor

variable {τ α ρ : Type*}

/-- What the monitor sees of a state: the owner field, the threads and the resource. -/
structure View (τ α ρ : Type*) where
  owner : Option τ
  thread : τ → Option α
  res : ρ

variable (M : Monitor α ρ)

/-- Mutual exclusion and the assertion that goes with the owner. -/
structure Inv (v : View τ α ρ) : Prop where
  owner_iff : ∀ t, v.owner = some t ↔ ∃ x, v.thread t = some x ∧ M.holds x = true
  free : v.owner = none → M.free v.res
  inside : ∀ t x, v.thread t = some x → M.holds x = true → M.inside x v.res

/-- The four forms a step of thread `t` may take, on the owner field, the local state of `t`
and the resource. -/
inductive Move (t : τ) : Option τ → α → ρ → Option τ → α → ρ → Prop
  | outside {o : Option τ} {x x' : α} {r r' : ρ} :
      M.holds x = false → M.holds x' = false → (M.free r → M.free r') →
      (∀ y, M.holds y = true → M.inside y r → M.inside y r') → Move t o x r o x' r'
  | acquire {x x' : α} {r r' : ρ} :
      M.holds x = false → M.holds x' = true → (M.free r → M.inside x' r') →
      Move t none x r (some t) x' r'
  | within {o : Option τ} {x x' : α} {r r' : ρ} :
      M.holds x = true → M.holds x' = true → (M.inside x r → M.inside x' r') →
      Move t o x r o x' r'
  | release {o : Option τ} {x x' : α} {r r' : ρ} :
      M.holds x = true → M.holds x' = false → (M.inside x r → M.free r') →
      Move t o x r none x' r'

variable {M}

/-- At most one thread holds the mutex. -/
theorem Inv.unique {v : View τ α ρ} (hinv : M.Inv v) {t u : τ} {x y : α}
    (hx : v.thread t = some x) (hxh : M.holds x = true)
    (hy : v.thread u = some y) (hyh : M.holds y = true) : t = u := by
  have ht : v.owner = some t := (hinv.owner_iff t).2 ⟨x, hx, hxh⟩
  have hu : v.owner = some u := (hinv.owner_iff u).2 ⟨y, hy, hyh⟩
  exact Option.some.inj (ht.symm.trans hu)

/-- A step that leaves the owner and the local states of holders alone, and under which every
assertion is stable, keeps the invariant. -/
theorem Inv.passive {v v' : View τ α ρ} (hinv : M.Inv v) (howner : v'.owner = v.owner)
    (hthread : ∀ u y, M.holds y = true → (v'.thread u = some y ↔ v.thread u = some y))
    (hfree : M.free v.res → M.free v'.res)
    (hinside : ∀ y, M.holds y = true → M.inside y v.res → M.inside y v'.res) : M.Inv v' where
  owner_iff t := by
    rw [howner, hinv.owner_iff t]
    constructor
    · rintro ⟨x, hx, hh⟩
      exact ⟨x, (hthread t x hh).2 hx, hh⟩
    · rintro ⟨x, hx, hh⟩
      exact ⟨x, (hthread t x hh).1 hx, hh⟩
  free h := hfree (hinv.free (howner ▸ h))
  inside t x hx hh := hinside x hh (hinv.inside t x ((hthread t x hh).1 hx) hh)

/-- The invariant when nobody holds the mutex. -/
theorem Inv.of_nobody {v : View τ α ρ} (howner : v.owner = none)
    (hnone : ∀ u z, v.thread u = some z → M.holds z = false) (hfree : M.free v.res) :
    M.Inv v where
  owner_iff u := by
    rw [howner]
    refine ⟨nofun, ?_⟩
    rintro ⟨z, hz, hh⟩
    rw [hnone u z hz] at hh
    cases hh
  free _ := hfree
  inside u z hz hh := by
    rw [hnone u z hz] at hh
    cases hh

/-- The invariant when `t` is the only thread that holds the mutex. -/
theorem Inv.of_holder {v : View τ α ρ} {t : τ} {y : α} (howner : v.owner = some t)
    (hy : v.thread t = some y) (hyh : M.holds y = true)
    (hothers : ∀ u, u ≠ t → ∀ z, v.thread u = some z → M.holds z = false)
    (hinside : M.inside y v.res) : M.Inv v := by
  have honly : ∀ u z, v.thread u = some z → M.holds z = true → u = t := by
    intro u z hz hh
    by_contra hu
    rw [hothers u hu z hz] at hh
    cases hh
  refine ⟨fun u => ⟨fun hu => ?_, ?_⟩, fun h => ?_, fun u z hz hh => ?_⟩
  · obtain rfl := Option.some.inj (howner.symm.trans hu)
    exact ⟨y, hy, hyh⟩
  · rintro ⟨z, hz, hh⟩
    rw [honly u z hz hh, howner]
  · rw [howner] at h
    cases h
  · obtain rfl := honly u z hz hh
    obtain rfl := Option.some.inj (hy.symm.trans hz)
    exact hinside

/-- While `t` holds the mutex, or nobody does, no other thread holds it. -/
theorem Inv.others {v : View τ α ρ} (hinv : M.Inv v) {t : τ}
    (ho : v.owner = none ∨ v.owner = some t) {u : τ} (hu : u ≠ t) {z : α}
    (hz : v.thread u = some z) : M.holds z = false := by
  by_contra hh
  rw [Bool.not_eq_false] at hh
  have hown := (hinv.owner_iff u).2 ⟨z, hz, hh⟩
  rcases ho with ho | ho
  · rw [ho] at hown
    cases hown
  · exact hu (Option.some.inj (hown.symm.trans ho))

/-- **The monitor rule.** A step of thread `t` that is a `Move` keeps the invariant, when no
other thread enters or leaves a local state that holds the mutex. -/
theorem Inv.move {v v' : View τ α ρ} (hinv : M.Inv v) {t : τ} {x y : α}
    (hx : v.thread t = some x) (hy : v'.thread t = some y)
    (hothers : ∀ u, u ≠ t → ∀ z, M.holds z = true →
      (v'.thread u = some z ↔ v.thread u = some z))
    (hmove : M.Move t v.owner x v.res v'.owner y v'.res) : M.Inv v' := by
  have hnone : v.owner = none ∨ v.owner = some t → ∀ u, u ≠ t → ∀ z,
      v'.thread u = some z → M.holds z = false := by
    intro ho u hu z hz
    by_contra hh
    rw [Bool.not_eq_false] at hh
    rw [hinv.others ho hu ((hothers u hu z hh).1 hz)] at hh
    cases hh
  obtain ⟨o', thread', res'⟩ := v'
  simp only at hy hothers hmove hnone
  generalize hvo : v.owner = o at hmove
  generalize hvr : v.res = r at hmove
  cases hmove with
  | outside hh hh' hfree hinside =>
    subst hvr
    refine hinv.passive hvo.symm (fun u z hz => ?_) hfree hinside
    by_cases hu : u = t
    · subst hu
      have hne : ∀ z', M.holds z' = false → z' ≠ z := by
        rintro z' hz' rfl
        rw [hz] at hz'
        cases hz'
      simp [hx, hy, hne x hh, hne y hh']
    · exact hothers u hu z hz
  | acquire hh hh' hass =>
    exact .of_holder rfl hy hh' (hnone (.inl hvo)) (hass (hvr ▸ hinv.free hvo))
  | within hh hh' hass =>
    have hown : v.owner = some t := (hinv.owner_iff t).2 ⟨x, hx, hh⟩
    exact .of_holder (hvo.symm.trans hown) hy hh' (hnone (.inr hown))
      (hass (hvr ▸ hinv.inside t x hx hh))
  | release hh hh' hass =>
    have hown : v.owner = some t := (hinv.owner_iff t).2 ⟨x, hx, hh⟩
    refine .of_nobody rfl (fun u z hz => ?_) (hass (hvr ▸ hinv.inside t x hx hh))
    by_cases hu : u = t
    · subst hu
      obtain rfl := Option.some.inj (hy.symm.trans hz)
      exact hh'
    · exact hnone (.inr hown) u hu z hz

/-! ## Moves from the discipline of the mutex -/

/-- How a step of thread `t` may treat the owner field, given whether `t` holds the mutex
before and after the step. -/
inductive Discipline (t : τ) : Option τ → Bool → Option τ → Bool → Prop
  | keep {o : Option τ} {b : Bool} : Discipline t o b o b
  | acquire : Discipline t none false (some t) true
  | release {o : Option τ} : Discipline t o true none false

/-- A thread that holds the mutex keeps it or frees it. -/
theorem Discipline.of_holder {t : τ} {o o' : Option τ} {b b' : Bool}
    (hd : Discipline t o b o' b') (hb : b = true) : o' = o ∨ o' = none := by
  cases hd with
  | keep => exact .inl rfl
  | acquire => cases hb
  | release => exact .inr rfl

/-- A mutex that nobody else uses is owned by `t` exactly when `t` holds it. -/
theorem Discipline.alone {t : τ} {o o' : Option τ} {b b' : Bool} (hd : Discipline t o b o' b')
    (ho : o = if b then some t else none) : o' = if b' then some t else none := by
  cases hd with
  | keep => exact ho
  | acquire | release => rfl

/-- What a step owes to the assertions: one obligation for each form of `Move`. -/
def Owes (M : Monitor α ρ) (x x' : α) (r r' : ρ) : Prop :=
  match M.holds x, M.holds x' with
  | false, false => (M.free r → M.free r') ∧ ∀ y, M.holds y = true → M.inside y r → M.inside y r'
  | false, true => M.free r → M.inside x' r'
  | true, true => M.inside x r → M.inside x' r'
  | true, false => M.inside x r → M.free r'

theorem Move.of_discipline {t : τ} {o o' : Option τ} {x x' : α} {r r' : ρ}
    (hd : Discipline t o (M.holds x) o' (M.holds x')) (how : M.Owes x x' r r') :
    M.Move t o x r o' x' r' := by
  unfold Owes at how
  generalize hb : M.holds x = b at hd how
  generalize hb' : M.holds x' = b' at hd how
  cases hd with
  | keep =>
    cases b
    · exact .outside hb hb' how.1 how.2
    · exact .within hb hb' how
  | acquire => exact .acquire hb hb' how
  | release => exact .release hb hb' how

/-! ## The owner alone

Where a thread may unlock a mutex it does not hold, mutual exclusion is lost, but the owner
field can still be trusted to name a thread that will unlock. -/

/-- The owner of the mutex, if there is one, is a thread that holds it. -/
def Attended (holds : α → Bool) (owner : Option τ) (thread : τ → Option α) : Prop :=
  ∀ t, owner = some t → ∃ x, thread t = some x ∧ holds x = true

theorem Attended.of_free {holds : α → Bool} {thread : τ → Option α} :
    Attended holds none thread := nofun

/-- A step that leaves the owner and the threads that hold the mutex alone. -/
theorem Attended.passive {holds : α → Bool} {o o' : Option τ} {thread thread' : τ → Option α}
    (hatt : Attended holds o thread) (howner : o' = o)
    (hthread : ∀ u z, holds z = true → thread u = some z → thread' u = some z) :
    Attended holds o' thread' := by
  intro u hu
  obtain ⟨x, hx, hh⟩ := hatt u (howner ▸ hu)
  exact ⟨x, hthread u x hh hx, hh⟩

/-- A step of `t` that follows the discipline of the mutex. -/
theorem Attended.move {holds : α → Bool} {o o' : Option τ} {thread thread' : τ → Option α}
    {t : τ} {x y : α} (hatt : Attended holds o thread) (hx : thread t = some x)
    (hy : thread' t = some y)
    (hothers : ∀ u, u ≠ t → ∀ z, holds z = true → thread u = some z → thread' u = some z)
    (hd : Discipline t o (holds x) o' (holds y)) : Attended holds o' thread' := by
  intro u hu
  generalize hb : holds x = b at hd
  generalize hb' : holds y = b' at hd
  by_cases hut : u = t
  · subst hut
    refine ⟨y, hy, ?_⟩
    cases hd with
    | keep =>
      obtain ⟨x', hx', hh⟩ := hatt u hu
      obtain rfl := Option.some.inj (hx.symm.trans hx')
      rw [hb', ← hb, hh]
    | acquire => exact hb'
    | release => cases hu
  · cases hd with
    | keep =>
      obtain ⟨z, hz, hh⟩ := hatt u hu
      exact ⟨z, hothers u hut z hh hz, hh⟩
    | acquire => exact absurd (Option.some.inj hu).symm hut
    | release => cases hu

end Monitor

end LinuxExercise
