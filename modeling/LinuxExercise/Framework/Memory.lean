import Mathlib.Tactic

/-!
# Arrays in memory

The elements of an array are the cells of a memory `m : ℤ → α` from `0` on.  An index may lie on
either side of the array: whether it does is for the program to show, and not for the type.

`fill`, `mapFrom` and an update at the end are what a program does to a buffer that it receives
into, converts in place and terminates; `load` is what it sends.
-/

namespace LinuxExercise.Memory

variable {α : Type*}

/-- The first `n` cells. -/
def load (m : ℤ → α) (n : ℕ) : List α := (List.range n).map fun i : ℕ => m i

/-- The memory with `xs` stored from cell `0` on. -/
def fill (xs : List α) (m : ℤ → α) (i : ℤ) : α :=
  if 0 ≤ i then xs[i.toNat]?.getD (m i) else m i

/-- The loop that applies `f` to the `n` cells from `i` on, in place. -/
def mapFrom (f : α → α) : ℕ → ℤ → (ℤ → α) → ℤ → α
  | 0, _, m => m
  | n + 1, i, m => mapFrom f n (i + 1) (Function.update m i (f (m i)))

theorem length_load (m : ℤ → α) (n : ℕ) : (load m n).length = n := by
  rw [load, List.length_map, List.length_range]

theorem getElem?_load {m : ℤ → α} {n i : ℕ} (hi : i < n) : (load m n)[i]? = some (m i) := by
  rw [load, List.getElem?_map, List.getElem?_range hi]
  rfl

/-- Storing to the cell behind the first `n` appends to them. -/
theorem load_update (m : ℤ → α) (n : ℕ) (a : α) :
    load (Function.update m n a) (n + 1) = load m n ++ [a] := by
  rw [load, List.range_succ, List.map_append, List.map_singleton, Function.update_self]
  refine congrArg (· ++ [a]) (List.map_congr_left fun i hi => ?_)
  have hne : (i : ℤ) ≠ n := by
    have := List.mem_range.mp hi
    omega
  exact Function.update_of_ne hne ..

theorem load_fill (xs : List α) (m : ℤ → α) : load (fill xs m) xs.length = xs := by
  refine List.ext_getElem? fun i => ?_
  by_cases hi : i < xs.length
  · rw [getElem?_load hi]
    simp [fill, hi]
  · rw [List.getElem?_eq_none (not_lt.mp hi),
      List.getElem?_eq_none (by rw [length_load]; exact not_lt.mp hi)]

/-- The loop converts the cells it goes over and leaves the others alone. -/
theorem mapFrom_apply (f : α → α) (n : ℕ) (i : ℤ) (m : ℤ → α) (j : ℤ) :
    mapFrom f n i m j = if i ≤ j ∧ j < i + n then f (m j) else m j := by
  induction n generalizing i m with
  | zero => rw [if_neg (by omega), mapFrom]
  | succ n ih =>
    rw [mapFrom, ih]
    by_cases hj : j = i
    · subst hj
      rw [if_neg (by omega), if_pos (by omega), Function.update_self]
    · rw [Function.update_of_ne hj]
      refine if_congr ?_ rfl rfl
      omega

/-- The first `n` cells after the loop over them. -/
theorem load_mapFrom (f : α → α) (n : ℕ) (m : ℤ → α) :
    load (mapFrom f n 0 m) n = (load m n).map f := by
  rw [load, load, List.map_map]
  refine List.map_congr_left fun i hi => ?_
  have hlt := List.mem_range.mp hi
  rw [mapFrom_apply, if_pos (by omega), Function.comp_apply]

end LinuxExercise.Memory
