import LinuxExercise.Framework.System

/-!
# Rings and bounded queues

A ring of `n` slots is written at positions `0, 1, 2, …`, position `k` in slot `k % n`.
`Ring.Holds slots seq lo` says that the slots hold the sequence `seq` from position `lo` on;
with `seq.length = lo + n` this is the last lap of `seq`, one value for every slot.  Writing
position `lo` touches no other position of the lap (`Holds.modify`), and once the slot holds
the new value the lap moves on by one (`Holds.push`).

`fifo n` is the bounded queue as a labelled system, for an implementation to be measured against;
`puts` and `gets` are what was put and taken in the course of a history.
-/

namespace LinuxExercise

namespace Ring

variable {α : Type*}

/-- The slots hold the values of `seq` at the positions from `lo` on. -/
def Holds (slots seq : List α) (lo : ℕ) : Prop :=
  ∀ k, lo ≤ k → k < seq.length → slots[k % slots.length]? = seq[k]?

/-- Positions less than a lap apart are in different slots. -/
theorem mod_ne_of_lt {n k size : ℕ} (hlt : n < k) (hlap : k < n + size) :
    k % size ≠ n % size := by
  intro h
  have hdvd : size ∣ k - n := (Nat.modEq_iff_dvd' hlt.le).mp h.symm
  have := Nat.le_of_dvd (by omega) hdvd
  omega

theorem Holds.mono {slots seq : List α} {lo lo' : ℕ} (h : Holds slots seq lo)
    (hle : lo ≤ lo') : Holds slots seq lo' :=
  fun k hk hlt => h k (hle.trans hk) hlt

/-- Changing the slot of position `n` keeps the rest of the lap that starts there. -/
theorem Holds.modify {slots seq : List α} {lo n : ℕ} (h : Holds slots seq lo)
    (hlo : lo ≤ n + 1) (hlen : seq.length = n + slots.length) (f : α → α) :
    Holds (slots.modify (n % slots.length) f) seq (n + 1) := by
  intro k hk hlt
  have hne : n % slots.length ≠ k % slots.length := (mod_ne_of_lt hk (hlen ▸ hlt)).symm
  rw [List.length_modify, List.getElem?_modify_ne _ _ hne]
  exact h k (hlo.trans hk) hlt

/-- Once the slot of position `n` holds `x`, the lap continues with `x`. -/
theorem Holds.push {slots seq : List α} {n : ℕ} {x : α} (h : Holds slots seq (n + 1))
    (hlen : seq.length = n + slots.length) (hx : slots[n % slots.length]? = some x) :
    Holds slots (seq ++ [x]) (n + 1) := by
  intro k hk hlt
  by_cases hkn : k < seq.length
  · rw [List.getElem?_append_left hkn]
    exact h k hk hkn
  · -- the new position is one lap after `n`
    have hk' : k = seq.length := by
      simp only [List.length_append, List.length_singleton] at hlt
      omega
    subst hk'
    rw [List.getElem?_append_right (Nat.le_refl _), hlen, Nat.add_mod_right, hx]
    simp

/-- The cyclic read of `size` slots from the slot of position `front`. -/
theorem Holds.read {slots seq : List α} {lo front size : ℕ} (h : Holds slots seq lo)
    (hlo : lo ≤ front) (hsize : front + size ≤ seq.length) :
    (List.range size).map (fun j => slots[(front + j) % slots.length]?) =
      ((seq.drop front).take size).map some := by
  apply List.ext_getElem?
  intro j
  by_cases hj : j < size
  · have hlt : front + j < seq.length := by omega
    simp [hj, h (front + j) (by omega) hlt, List.getElem?_take_of_lt hj, List.getElem?_drop,
      List.getElem?_eq_getElem hlt]
  · rw [List.getElem?_eq_none (by simpa using hj),
      List.getElem?_eq_none (by simp; omega)]

end Ring

/-! ## The bounded queue -/

/-- The operations of a bounded queue; `stay` is a step of the implementation that the queue
does not see. -/
inductive FifoOp (α : Type*)
  | put (x : α)
  | get (x : α)
  | stay

/-- The bounded queue of capacity `n`. -/
inductive FifoStep {α : Type*} (n : ℕ) : List α → FifoOp α → List α → Prop
  | put {q : List α} {x : α} : q.length < n → FifoStep n q (.put x) (q ++ [x])
  | get {q : List α} {x : α} : FifoStep n (x :: q) (.get x) q
  | stay {q : List α} : FifoStep n q .stay q

/-- The bounded queue as a system, empty at the start. -/
def fifo (α : Type*) (n : ℕ) : System (List α) (FifoOp α) where
  init q := q = []
  step q op q' := FifoStep n q op q'

/-- The values put in the course of a history. -/
def puts {α σ : Type*} (h : List (Event σ (FifoOp α))) : List α :=
  h.filterMap fun e => match e.label with | .put x => some x | _ => none

/-- The values taken in the course of a history. -/
def gets {α σ : Type*} (h : List (Event σ (FifoOp α))) : List α :=
  h.filterMap fun e => match e.label with | .get x => some x | _ => none

end LinuxExercise
