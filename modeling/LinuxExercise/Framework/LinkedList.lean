import Mathlib.Data.List.Nodup
import Mathlib.Logic.Function.Basic

/-!
# Singly linked lists in a heap

A heap maps addresses to nodes, and `next` reads the link of a node; address `0` ends a list.
`Linked next heap head as` says that the list that starts at `head` consists of the nodes at
the addresses `as`, in this order.  Whatever happens at other addresses does not matter to it
(`Linked.frame`); nodes are put at and taken from the front (`Linked.cons`, `linked_cons_iff`).
-/

namespace LinuxExercise

section Linked

variable {ν : Type*} (next : ν → ℕ)

/-- The list at `head` has its nodes at the addresses `as`. -/
def Linked (heap : ℕ → Option ν) : ℕ → List ℕ → Prop
  | head, [] => head = 0
  | head, a :: as => head = a ∧ a ≠ 0 ∧ ∃ n, heap a = some n ∧ Linked heap (next n) as

variable {next} {heap heap' : ℕ → Option ν} {head a : ℕ} {as : List ℕ}

/-- A list is there as long as its own nodes have their links. -/
theorem Linked.frame (h : Linked next heap head as)
    (hsame : ∀ b ∈ as, (heap' b).map next = (heap b).map next) : Linked next heap' head as := by
  induction as generalizing head with
  | nil => exact h
  | cons b bs ih =>
    obtain ⟨hhead, hne, n, hn, hrest⟩ := h
    have hb := hsame b List.mem_cons_self
    rw [hn, Option.map_some, Option.map_eq_some_iff] at hb
    obtain ⟨n', hn', hnext⟩ := hb
    refine ⟨hhead, hne, n', hn', ?_⟩
    rw [hnext]
    exact ih hrest fun c hc => hsame c (List.mem_cons_of_mem b hc)

theorem Linked.head_eq_zero_iff (h : Linked next heap head as) : head = 0 ↔ as = [] := by
  cases as with
  | nil => exact iff_of_true h rfl
  | cons a as =>
    refine iff_of_false ?_ (List.cons_ne_nil a as)
    rw [h.1]
    exact h.2.1

/-- A node whose link is the head is put at the front. -/
theorem Linked.cons (h : Linked next heap head as) (ha : a ≠ 0) {n : ν} (hn : heap a = some n)
    (hnext : next n = head) : Linked next heap a (a :: as) :=
  ⟨rfl, ha, n, hn, hnext.symm ▸ h⟩

/-- A list with a head has a first node, and the rest is the list at its link. -/
theorem Linked.uncons (h : Linked next heap head as) (hhead : head ≠ 0) :
    ∃ n bs, heap head = some n ∧ as = head :: bs ∧ Linked next heap (next n) bs := by
  cases as with
  | nil => exact absurd h hhead
  | cons a as =>
    obtain ⟨rfl, -, n, hn, hrest⟩ := h
    exact ⟨n, as, hn, rfl, hrest⟩

end Linked

end LinuxExercise
