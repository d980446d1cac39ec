import Mathlib.Tactic
import Mathlib.Data.Set.Insert

/-!
# Tables with holes

A table `t : ℕ → α` keeps a set in slots that may be vacant.  `Lists vacant t bound s` says
that the occupied slots hold the members of `s`, each in one slot, and that they are below
`bound`.  A member is entered into the first vacant slot (`firstVacant`) and leaves by its slot
being overwritten with a vacant value; the bound only grows.

`scan` is the loop that goes over a table after a call has reported `k` ready entries: it
serves the ready ones and stops early after the `k`-th.  `scan_eq_serveAll` says that this
serves exactly the ready entries, in order, when the report was right and serving an entry
does not change whether a later one is ready.
-/

namespace LinuxExercise.SlotTable

variable {α : Type*}

/-! ## The first vacant slot -/

section FirstVacant

variable (vacant : α → Prop) [DecidablePred vacant]

/-- The first vacant slot among the `n` slots from `i` on, `i + n` when there is none. -/
def firstVacant (t : ℕ → α) : ℕ → ℕ → ℕ
  | 0, i => i
  | n + 1, i => if vacant (t i) then i else firstVacant t n (i + 1)

variable {vacant} {t : ℕ → α}

theorem firstVacant_le (n i : ℕ) : firstVacant vacant t n i ≤ i + n := by
  induction n generalizing i with
  | zero => exact le_rfl
  | succ n ih =>
    unfold firstVacant
    split
    · omega
    · have := ih (i + 1)
      omega

theorem vacant_firstVacant {n i : ℕ} (h : firstVacant vacant t n i ≠ i + n) :
    vacant (t (firstVacant vacant t n i)) := by
  induction n generalizing i with
  | zero => exact absurd rfl h
  | succ n ih =>
    unfold firstVacant at h ⊢
    split
    · assumption
    · next hocc =>
      rw [if_neg hocc] at h
      exact ih (by omega)

/-- A search from slot `0` that succeeds finds a vacant slot. -/
theorem vacant_of_found {n : ℕ} (h : firstVacant vacant t n 0 ≠ n) :
    vacant (t (firstVacant vacant t n 0)) :=
  vacant_firstVacant (by rwa [Nat.zero_add])

theorem occupied_of_lt_firstVacant {n i j : ℕ} (hi : i ≤ j)
    (hj : j < firstVacant vacant t n i) : ¬ vacant (t j) := by
  induction n generalizing i with
  | zero => exact absurd hi (Nat.not_le.mpr hj)
  | succ n ih =>
    unfold firstVacant at hj
    split at hj
    · omega
    · next hocc =>
      rcases Nat.eq_or_lt_of_le hi with rfl | hlt
      · exact hocc
      · exact ih hlt hj

/-- The search fails exactly when every slot is occupied. -/
theorem firstVacant_eq_iff {n : ℕ} :
    firstVacant vacant t n 0 = n ↔ ∀ j < n, ¬ vacant (t j) := by
  constructor
  · intro h j hj
    exact occupied_of_lt_firstVacant (Nat.zero_le j) (by rw [h]; exact hj)
  · intro hocc
    by_contra hne
    have hvac := vacant_of_found hne
    have hle : firstVacant vacant t n 0 ≤ 0 + n := firstVacant_le n 0
    exact hocc _ (by omega) hvac

/-- The search finds the slot below which all are occupied. -/
theorem firstVacant_eq {n i : ℕ} (hin : i < n) (hi : vacant (t i))
    (hocc : ∀ j < i, ¬ vacant (t j)) : firstVacant vacant t n 0 = i := by
  rcases Nat.lt_trichotomy (firstVacant vacant t n 0) i with hlt | heq | hgt
  · exact absurd (vacant_of_found (hlt.trans hin).ne) (hocc _ hlt)
  · exact heq
  · exact absurd hi (occupied_of_lt_firstVacant (Nat.zero_le i) hgt)

end FirstVacant

/-! ## Tables that list a set -/

section Lists

variable {vacant : α → Prop} {t : ℕ → α} {bound : ℕ} {s : Set α}

/-- The occupied slots hold the members of `s`, each once, and lie below `bound`. -/
structure Lists (vacant : α → Prop) (t : ℕ → α) (bound : ℕ) (s : Set α) : Prop where
  distinct : ∀ i j, ¬ vacant (t i) → t i = t j → i = j
  below : ∀ i, ¬ vacant (t i) → i < bound
  mem_iff : ∀ a, a ∈ s ↔ ¬ vacant a ∧ ∃ i, t i = a

theorem Lists.mono (h : Lists vacant t bound s) {bound' : ℕ} (hle : bound ≤ bound') :
    Lists vacant t bound' s :=
  { h with below := fun i hi => (h.below i hi).trans_le hle }

theorem Lists.empty (hvac : ∀ i, vacant (t i)) (hs : s = ∅) : Lists vacant t bound s where
  distinct i _ hi := absurd (hvac i) hi
  below i hi := absurd (hvac i) hi
  mem_iff a := by
    rw [hs]
    refine ⟨fun h => h.elim, ?_⟩
    rintro ⟨ha, i, rfl⟩
    exact ha (hvac i)

/-- Entering a new member into a vacant slot. -/
theorem Lists.insert (h : Lists vacant t bound s) {i : ℕ} {a : α} (hi : vacant (t i))
    (ha : ¬ vacant a) (hnew : a ∉ s) :
    Lists vacant (Function.update t i a) (max bound (i + 1)) (insert a s) := by
  have hfresh : ∀ j, t j ≠ a := fun j hj => hnew ((h.mem_iff a).2 ⟨ha, j, hj⟩)
  refine ⟨fun j k hj hjk => ?_, fun j hj => ?_, fun b => ?_⟩
  · by_cases hji : j = i <;> by_cases hki : k = i
    · rw [hji, hki]
    · subst hji
      rw [Function.update_self, Function.update_of_ne hki] at hjk
      exact absurd hjk.symm (hfresh k)
    · subst hki
      rw [Function.update_self, Function.update_of_ne hji] at hjk
      exact absurd hjk (hfresh j)
    · rw [Function.update_of_ne hji] at hj hjk
      rw [Function.update_of_ne hki] at hjk
      exact h.distinct j k hj hjk
  · by_cases hji : j = i
    · omega
    · rw [Function.update_of_ne hji] at hj
      have := h.below j hj
      omega
  · rw [Set.mem_insert_iff, h.mem_iff]
    constructor
    · rintro (rfl | ⟨hb, j, rfl⟩)
      · exact ⟨ha, i, Function.update_self ..⟩
      · have hji : j ≠ i := fun hji => hb (hji ▸ hi)
        exact ⟨hb, j, Function.update_of_ne hji ..⟩
    · rintro ⟨hb, j, hj⟩
      by_cases hji : j = i
      · subst hji
        rw [Function.update_self] at hj
        exact .inl hj.symm
      · rw [Function.update_of_ne hji] at hj
        exact .inr ⟨hb, j, hj⟩

/-- Writing a vacant value into a vacant slot. -/
theorem Lists.skip (h : Lists vacant t bound s) {i : ℕ} {e : α} (hi : vacant (t i))
    (he : vacant e) : Lists vacant (Function.update t i e) bound s := by
  have hocc : ∀ j, ¬ vacant (Function.update t i e j) → j ≠ i := by
    rintro j hj rfl
    rw [Function.update_self] at hj
    exact hj he
  refine ⟨fun j k hj hjk => ?_, fun j hj => ?_, fun b => ?_⟩
  · have hki := hocc k (hjk ▸ hj)
    have hji := hocc j hj
    rw [Function.update_of_ne hji] at hj hjk
    rw [Function.update_of_ne hki] at hjk
    exact h.distinct j k hj hjk
  · rw [Function.update_of_ne (hocc j hj)] at hj
    exact h.below j hj
  · rw [h.mem_iff]
    refine and_congr_right fun hb => ⟨?_, ?_⟩
    · rintro ⟨j, rfl⟩
      have hji : j ≠ i := fun hji => hb (hji ▸ hi)
      exact ⟨j, Function.update_of_ne hji ..⟩
    · rintro ⟨j, rfl⟩
      exact ⟨j, (Function.update_of_ne (hocc j hb) ..).symm⟩

/-- Removing a member: every slot that holds it becomes vacant. -/
theorem Lists.remove (h : Lists vacant t bound s) {a e : α} (he : vacant e) {t' : ℕ → α}
    (ht' : ∀ j, t' j = t j ∧ t j ≠ a ∨ t' j = e ∧ t j = a) :
    Lists vacant t' bound (s \ {a}) := by
  have hocc : ∀ j, ¬ vacant (t' j) → t' j = t j ∧ t j ≠ a := by
    intro j hj
    rcases ht' j with hsame | ⟨hvac, -⟩
    · exact hsame
    · rw [hvac] at hj
      exact absurd he hj
  refine ⟨fun j k hj hjk => ?_, fun j hj => ?_, fun b => ?_⟩
  · have hk := (hocc k (hjk ▸ hj)).1
    have hj' := (hocc j hj).1
    rw [hj'] at hj hjk
    rw [hk] at hjk
    exact h.distinct j k hj hjk
  · rw [(hocc j hj).1] at hj
    exact h.below j hj
  · rw [Set.mem_sdiff, Set.mem_singleton_iff, h.mem_iff]
    constructor
    · rintro ⟨⟨hb, j, rfl⟩, hne⟩
      rcases ht' j with ⟨hsame, -⟩ | ⟨-, ha⟩
      · exact ⟨hb, j, hsame⟩
      · exact absurd ha hne
    · rintro ⟨hb, j, rfl⟩
      obtain ⟨hsame, hne⟩ := hocc j hb
      exact ⟨⟨hb, j, hsame.symm⟩, hsame ▸ hne⟩

/-- Removing the member in slot `i`. -/
theorem Lists.clear (h : Lists vacant t bound s) {i : ℕ} {e : α} (hi : ¬ vacant (t i))
    (he : vacant e) : Lists vacant (Function.update t i e) bound (s \ {t i}) := by
  refine h.remove he fun j => ?_
  by_cases hji : j = i
  · subst hji
    exact .inr ⟨Function.update_self .., rfl⟩
  · refine .inl ⟨Function.update_of_ne hji .., fun hj => hji ?_⟩
    exact (h.distinct i j hi hj.symm).symm

end Lists

/-! ## Going over the ready entries -/

section Scan

variable {σ κ : Type*} (ready : σ → ℕ → Bool) (serve : ℕ → σ → σ × List κ) (stopped : σ → Bool)

/-- Go over the `n` entries from `i` on, serving the ready ones, until the program has stopped
or `k` entries have been served; the second component is the trace of the calls made. -/
def scan : ℕ → ℕ → ℤ → σ → σ × List κ
  | 0, _, _, s => (s, [])
  | n + 1, i, k, s =>
    if ready s i then
      if stopped (serve i s).1 || decide (k - 1 = 0) then serve i s
      else
        let rest := scan n (i + 1) (k - 1) (serve i s).1
        (rest.1, (serve i s).2 ++ rest.2)
    else scan n (i + 1) k s

/-- Serve the listed entries in order, until the program has stopped. -/
def serveAll : List ℕ → σ → σ × List κ
  | [], s => (s, [])
  | i :: is, s =>
    if stopped (serve i s).1 then serve i s
    else
      let rest := serveAll is (serve i s).1
      (rest.1, (serve i s).2 ++ rest.2)

/-- The ready entries among the `n` from `i` on. -/
def readyFrom (s : σ) (i n : ℕ) : List ℕ := (List.range' i n).filter (ready s)

variable {ready serve stopped}

theorem readyFrom_succ (s : σ) (i n : ℕ) :
    readyFrom ready s i (n + 1) =
      if ready s i then i :: readyFrom ready s (i + 1) n else readyFrom ready s (i + 1) n := by
  rw [readyFrom, List.range'_succ, List.filter_cons]
  rfl

/-- What every service keeps, of the state and of the calls made so far, the scan keeps. -/
theorem scan_ledger {P : σ → List κ → Prop}
    (hserve : ∀ s i cs, ready s i = true → P s cs → P (serve i s).1 (cs ++ (serve i s).2))
    (n i : ℕ) (k : ℤ) {s : σ} (cs : List κ) (hs : P s cs) :
    P (scan ready serve stopped n i k s).1 (cs ++ (scan ready serve stopped n i k s).2) := by
  induction n generalizing i k s cs with
  | zero => exact (List.append_nil cs).symm ▸ hs
  | succ n ih =>
    unfold scan
    split
    · next hready =>
      have hone := hserve s i cs hready hs
      split
      · exact hone
      · rw [← List.append_assoc]
        exact ih _ _ _ hone
    · exact ih _ _ _ hs

/-- What every service keeps, the scan keeps. -/
theorem scan_invariant {P : σ → Prop}
    (hserve : ∀ s i, ready s i = true → P s → P (serve i s).1) (n i : ℕ) (k : ℤ) {s : σ}
    (hs : P s) : P (scan ready serve stopped n i k s).1 :=
  scan_ledger (P := fun s _ => P s) (fun s i _ => hserve s i) n i k [] hs

/-- A scan of states that carry more than the program's, which the program does not see. -/
theorem scan_map {τ : Type*} (ready : σ → ℕ → Bool) (stopped : σ → Bool) (f : τ → σ)
    {serve' : ℕ → τ → τ × List κ}
    (hserve : ∀ i t, f (serve' i t).1 = (serve i (f t)).1) (n i : ℕ) (k : ℤ) (t : τ) :
    f (scan (fun t => ready (f t)) serve' (fun t => stopped (f t)) n i k t).1 =
      (scan ready serve stopped n i k (f t)).1 := by
  induction n generalizing i k t with
  | zero => rfl
  | succ n ih =>
    unfold scan
    rw [← hserve]
    by_cases hready : ready (f t) i = true
    · rw [if_pos hready, if_pos hready]
      split
      · exact hserve i t
      · exact ih (i + 1) (k - 1) (serve' i t).1
    · rw [if_neg hready, if_neg hready]
      exact ih (i + 1) k t

/-- **The scan serves exactly the ready entries**, when their number was reported correctly. -/
theorem scan_eq_serveAll
    (hlater : ∀ s i j, ready s i = true → i < j → ready (serve i s).1 j = ready s j)
    (n i : ℕ) (k : ℤ) (s : σ) (hk : k = (readyFrom ready s i n).length) :
    scan ready serve stopped n i k s = serveAll serve stopped (readyFrom ready s i n) s := by
  induction n generalizing i k s with
  | zero => rfl
  | succ n ih =>
    rw [readyFrom_succ] at hk ⊢
    unfold scan
    by_cases hready : ready s i = true
    · rw [if_pos hready] at hk ⊢
      rw [if_pos hready]
      have hsame : readyFrom ready (serve i s).1 (i + 1) n = readyFrom ready s (i + 1) n := by
        refine List.filter_congr fun j hj => ?_
        exact hlater s i j hready (List.mem_range'_1.mp hj).1
      unfold serveAll
      rw [List.length_cons] at hk
      by_cases hstop : stopped (serve i s).1 = true
      · simp [hstop]
      · by_cases hlast : k - 1 = 0
        · -- The last reported entry has been served, so nothing is left to serve.
          have hnil : readyFrom ready s (i + 1) n = [] :=
            List.length_eq_zero_iff.mp (by push_cast at hk; omega)
          simp [hstop, hlast, hnil, serveAll]
        · have hrest := ih (i + 1) (k - 1) (serve i s).1 (by rw [hsame]; push_cast at hk; omega)
          rw [hsame] at hrest
          simp [hstop, hlast, hrest]
    · rw [if_neg hready] at hk ⊢
      rw [if_neg hready]
      exact ih (i + 1) k s hk

end Scan

end LinuxExercise.SlotTable
