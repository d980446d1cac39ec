import Mathlib.Tactic

/-!
# A network of datagrams

What is in flight is a list of packets whose order means nothing: any of them may arrive next,
and any of them may be lost or duplicated before it does (`Fault`).  A packet of its own accord
is never made and never changed, so what holds of the packets that were sent holds of those that
arrive (`fault_subset`, `arrive_perm`).
-/

namespace LinuxExercise

/-- What the network may do to a packet, which it names by its place. -/
inductive Fault
  | lose (k : ℕ)
  | duplicate (k : ℕ)
  deriving DecidableEq, Repr

namespace Datagrams

variable {π : Type*} {k : ℕ} {x : π} {net net' : List π}

def fault : Fault → List π → Option (List π)
  | .lose k, net => if k < net.length then some (net.eraseIdx k) else none
  | .duplicate k, net => net[k]?.map fun x => x :: net

/-- The packet at place `k` arrives. -/
def arrive (k : ℕ) (net : List π) : Option (π × List π) :=
  net[k]?.map fun x => (x, net.eraseIdx k)

/-- A fault brings no new packet. -/
theorem fault_subset {f : Fault} (h : fault f net = some net') : net' ⊆ net := by
  cases f with
  | lose k =>
    simp only [fault] at h
    split at h
    · cases h
      exact List.eraseIdx_subset
    · cases h
  | duplicate k =>
    obtain ⟨x, hx, rfl⟩ := Option.map_eq_some_iff.mp h
    exact List.cons_subset.mpr ⟨List.mem_of_getElem? hx, List.Subset.refl _⟩

/-- The packet that arrives is taken from those in flight. -/
theorem arrive_perm (h : arrive k net = some (x, net')) : net.Perm (x :: net') := by
  obtain ⟨y, hy, heq⟩ := Option.map_eq_some_iff.mp h
  obtain ⟨rfl, rfl⟩ := Prod.mk.inj heq
  obtain ⟨hlt, rfl⟩ := List.getElem?_eq_some_iff.mp hy
  exact (List.getElem_cons_eraseIdx_perm hlt).symm

end Datagrams

end LinuxExercise
