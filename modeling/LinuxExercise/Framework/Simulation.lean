import LinuxExercise.Framework.System

/-!
# Forward simulation

`M` is simulated by `N` along `f` when `f` takes initial states to initial states and every step
of `M` to a step of `N`, or to no step at all, with the same output.  Every run of `M` then has a
run of `N` with the same output that ends in the image of its last state (`Run.simulate`).
-/

namespace LinuxExercise.System

variable {σ ℓ τ κ α : Type*}

/-- What the events of a history put out, in order. -/
def output (out : Event σ ℓ → List α) (h : List (Event σ ℓ)) : List α := h.flatMap out

theorem output_snoc (out : Event σ ℓ → List α) (h : List (Event σ ℓ)) (e : Event σ ℓ) :
    output out (h ++ [e]) = output out h ++ out e := by
  simp [output]

/-- `f` is a forward simulation that keeps the output and may skip silent steps. -/
structure Simulates (M : System σ ℓ) (N : System τ κ) (f : σ → τ) (outM : Event σ ℓ → List α)
    (outN : Event τ κ → List α) : Prop where
  init : ∀ s, M.init s → N.init (f s)
  step : ∀ s l s', M.Reachable s → M.step s l s' →
    (f s' = f s ∧ outM ⟨s, l, s'⟩ = []) ∨
    ∃ k, N.step (f s) k (f s') ∧ outN ⟨f s, k, f s'⟩ = outM ⟨s, l, s'⟩

/-- A run has a run of the simulating system with the same output. -/
theorem Run.simulate {M : System σ ℓ} {N : System τ κ} {f : σ → τ} {outM : Event σ ℓ → List α}
    {outN : Event τ κ → List α} (hsim : M.Simulates N f outM outN) {h : List (Event σ ℓ)} {s : σ}
    (hrun : M.Run h s) : ∃ h', N.Run h' (f s) ∧ output outN h' = output outM h := by
  induction hrun with
  | start hs => exact ⟨[], .start (hsim.init _ hs), rfl⟩
  | @step h s s' l hr hs ih =>
    obtain ⟨h', hr', hout⟩ := ih
    rcases hsim.step s l s' ⟨h, hr⟩ hs with ⟨hsame, hsilent⟩ | ⟨k, hk, hsay⟩
    · exact ⟨h', hsame ▸ hr', by rw [output_snoc, hsilent, List.append_nil, hout]⟩
    · exact ⟨h' ++ [⟨f s, k, f s'⟩], hr'.step hk, by rw [output_snoc, output_snoc, hsay, hout]⟩

end LinuxExercise.System
