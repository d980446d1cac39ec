import Mathlib.Tactic
import Mathlib.Data.Finset.Card

/-!
# Counting in a list of threads

Threads are kept in a list, in the order of their creation, and the invariants of the programs
that create them count those with a given property.  `countP_set_add` is the change of such a
count when one thread takes a step, written without subtraction, and `sum_map_set_add` that of
a sum; `countP_le_of_slots` bounds the count when every counted thread occupies a slot of its
own.
-/

namespace LinuxExercise

variable {α β : Type*}

/-- Replacing one entry changes a count by what the two entries contribute. -/
theorem countP_set_add {p : α → Bool} {l : List α} {i : ℕ} {a b : α} (h : l[i]? = some a) :
    (l.set i b).countP p + (if p a then 1 else 0) = l.countP p + (if p b then 1 else 0) := by
  obtain ⟨hlt, hget⟩ := List.getElem?_eq_some_iff.mp h
  have hle : p a = true → 1 ≤ l.countP p := fun ha =>
    List.countP_pos_iff.mpr ⟨a, List.mem_of_getElem? h, ha⟩
  rw [List.countP_set hlt, hget]
  by_cases ha : p a = true
  · have := hle ha
    simp only [ha, if_true]
    omega
  · simp [ha]

/-- Replacing one entry changes a sum by what the two entries contribute. -/
theorem sum_map_set_add {f : α → ℕ} {l : List α} {i : ℕ} {a b : α} (h : l[i]? = some a) :
    ((l.set i b).map f).sum + f a = (l.map f).sum + f b := by
  induction l generalizing i with
  | nil => cases h
  | cons c l ih =>
    cases i with
    | zero =>
      obtain rfl := Option.some.inj h
      simp only [List.set_cons_zero, List.map_cons, List.sum_cons]
      omega
    | succ i =>
      have hrest := ih (i := i) h
      simp only [List.set_cons_succ, List.map_cons, List.sum_cons]
      omega

/-- A count that a map does not see. -/
theorem countP_map_of_eq {p : α → Bool} {f : α → α} (hf : ∀ a, p (f a) = p a) (l : List α) :
    (l.map f).countP p = l.countP p := by
  rw [List.countP_map]
  exact List.countP_congr fun a _ => by simp [hf a]

/-- The count as the size of a set of indices. -/
theorem card_filter_eq_countP (p : α → Bool) (l : List α) :
    ((Finset.range l.length).filter fun i => (l[i]?).any p = true).card = l.countP p := by
  induction l using List.reverseRecOn with
  | nil => simp
  | append_singleton l a ih =>
    have hold : ((Finset.range l.length).filter fun i => ((l ++ [a])[i]?).any p = true) =
        (Finset.range l.length).filter fun i => (l[i]?).any p = true := by
      refine Finset.filter_congr fun i hi => ?_
      rw [List.getElem?_append_left (Finset.mem_range.mp hi)]
    have hlast : (l ++ [a])[l.length]? = some a := by simp
    rw [List.length_append, List.length_singleton, Finset.range_add_one, Finset.filter_insert,
      hlast, hold, List.countP_append, List.countP_singleton, ← ih]
    by_cases ha : p a = true
    · simp [ha]
    · simp [ha]

/-- If every counted entry is named by a slot of its own, there are at least as many slots. -/
theorem countP_le_of_slots {p : α → Bool} {l : List α} {slots : List β} {name : ℕ → β}
    (hname : Function.Injective name)
    (hslot : ∀ i a, l[i]? = some a → p a = true →
      ∃ j < slots.length, slots[j]? = some (name i)) :
    l.countP p ≤ slots.length := by
  classical
  rw [← card_filter_eq_countP]
  have hchoose : ∀ i ∈ (Finset.range l.length).filter (fun i => (l[i]?).any p = true),
      ∃ j < slots.length, slots[j]? = some (name i) := by
    intro i hi
    obtain ⟨hlt, hany⟩ := Finset.mem_filter.mp hi
    rw [List.getElem?_eq_getElem (Finset.mem_range.mp hlt)] at hany
    exact hslot i _ (List.getElem?_eq_getElem (Finset.mem_range.mp hlt)) hany
  choose! f hf using hchoose
  calc ((Finset.range l.length).filter fun i => (l[i]?).any p = true).card
      ≤ (Finset.range slots.length).card := by
        refine Finset.card_le_card_of_injOn f (fun i hi => ?_) (fun i hi k hk hik => ?_)
        · exact Finset.mem_coe.mpr (Finset.mem_range.mpr (hf i hi).1)
        · have hi' := (hf i hi).2
          rw [hik, (hf k hk).2] at hi'
          exact (hname (Option.some.inj hi')).symm
    _ = slots.length := Finset.card_range _

end LinuxExercise
