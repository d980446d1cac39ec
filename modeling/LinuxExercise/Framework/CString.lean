import Mathlib.Tactic

/-!
# Strings in a buffer

`cstring buf` is what a function that is handed `buf` as a string takes it to be: the elements in
front of the first `0`.  If there is none the function runs past the end of the buffer, and
`cstring buf` is `none`.

A program that stores `xs` at the beginning of a buffer and goes on to use it as a string relies
on what was behind them before: `cstring_append_eq_iff`.
-/

namespace LinuxExercise

variable {α : Type*} [Zero α] [DecidableEq α]

/-- The string at the beginning of a buffer, if it ends inside. -/
def cstring (buf : List α) : Option (List α) :=
  if 0 ∈ buf then some (buf.takeWhile (· ≠ 0)) else none

theorem takeWhile_of_notMem {xs : List α} (h : 0 ∉ xs) (ys : List α) :
    (xs ++ ys).takeWhile (· ≠ 0) = xs ++ ys.takeWhile (· ≠ 0) :=
  List.takeWhile_append_of_pos fun _ hx => decide_eq_true fun hzero => h (hzero ▸ hx)

theorem cstring_append_of_mem {xs : List α} (h : 0 ∈ xs) (ys : List α) :
    cstring (xs ++ ys) = some (xs.takeWhile (· ≠ 0)) := by
  obtain ⟨before, after, rfl, hbefore⟩ := List.eq_append_cons_of_mem h
  rw [cstring, if_pos (List.mem_append_left _ h), List.append_assoc, takeWhile_of_notMem hbefore,
    takeWhile_of_notMem hbefore]
  simp

theorem cstring_append_of_notMem {xs : List α} (h : 0 ∉ xs) (ys : List α) :
    cstring (xs ++ ys) = (cstring ys).map (xs ++ ·) := by
  by_cases hys : 0 ∈ ys
  · rw [cstring, cstring, if_pos hys, if_pos (List.mem_append_right _ hys),
      takeWhile_of_notMem h]
    rfl
  · have hnot : 0 ∉ xs ++ ys := fun hmem => (List.mem_append.mp hmem).elim h hys
    rw [cstring, cstring, if_neg hys, if_neg hnot]
    rfl

theorem cstring_eq_nil_iff {ys : List α} : cstring ys = some [] ↔ ys.head? = some 0 := by
  cases ys with
  | nil => simp [cstring]
  | cons y ys =>
    by_cases hy : y = 0
    · simp [cstring, hy]
    · simp [cstring, hy, Ne.symm hy]

/-- The string in a buffer that begins with `xs` is what `xs` says, and nothing else, if `xs`
has an end of its own or is followed by one. -/
theorem cstring_append_eq_iff {xs ys : List α} :
    cstring (xs ++ ys) = some (xs.takeWhile (· ≠ 0)) ↔ 0 ∈ xs ∨ ys.head? = some 0 := by
  by_cases h : 0 ∈ xs
  · exact iff_of_true (cstring_append_of_mem h ys) (.inl h)
  · have hxs : xs.takeWhile (· ≠ 0) = xs := by
      have htake := takeWhile_of_notMem h []
      rwa [List.append_nil, List.takeWhile_nil, List.append_nil] at htake
    rw [cstring_append_of_notMem h, hxs, or_iff_right h, ← cstring_eq_nil_iff]
    constructor
    · intro hmap
      obtain ⟨s, hs, hcat⟩ := Option.map_eq_some_iff.mp hmap
      rwa [List.append_right_eq_self.mp hcat] at hs
    · intro hs
      rw [hs]
      exact congrArg some (List.append_nil xs)

end LinuxExercise
