-- The maximal runs of a list, in their order: each covers places that hold one
-- value, the next one starts where it ends, and with another value. A loop that
-- carries an open run keeps this true of its runs with the open one closed.
import Mathlib.Data.Finset.Card
import Mathlib.Data.List.Chain

namespace run_length

/-- The places from `lo` to `hi`, the last one included. -/
structure Run (α : Type*) where
  lo : Nat
  hi : Nat
  value : α

variable {α : Type*} {xs : List α} {runs : List (Run α)} {run : Run α} {x : α}

structure MaximalRuns (xs : List α) (runs : List (Run α)) : Prop where
  first : runs.head?.map (·.lo) = some 0
  last : runs.getLast?.map (·.hi + 1) = some xs.length
  ordered : ∀ r ∈ runs, r.lo ≤ r.hi
  meet : runs.IsChain fun r r' => r'.lo = r.hi + 1
  differ : runs.IsChain fun r r' => r.value ≠ r'.value
  exact : ∀ r ∈ runs, ∀ i, r.lo ≤ i → i ≤ r.hi → xs[i]? = some r.value

theorem maximal_runs_singleton (x : α) : MaximalRuns [x] [⟨0, 0, x⟩] := by
  refine ⟨rfl, rfl, by simp, List.isChain_singleton _, List.isChain_singleton _, ?_⟩
  intro r hr i _ hi
  rw [List.mem_singleton.mp hr] at hi ⊢
  rw [Nat.le_zero.mp hi]
  rfl

/-- The last run ends with the list. -/
theorem MaximalRuns.end_eq (h : MaximalRuns xs (runs ++ [run])) : run.hi + 1 = xs.length := by
  simpa using h.last

/-- What holds of the runs and the list holds after one more member. -/
theorem MaximalRuns.exact_snoc (h : MaximalRuns xs (runs ++ [run])) (y : α) {r : Run α}
    (hr : r ∈ runs ++ [run]) {i : Nat} (hlo : r.lo ≤ i) (hhi : i ≤ r.hi) :
    (xs ++ [y])[i]? = some r.value := by
  have hget := h.exact r hr i hlo hhi
  rw [List.getElem?_append_left (List.getElem?_eq_some_iff.mp hget).1]
  exact hget

/-- One more member with the value of the last run makes that run longer. -/
theorem MaximalRuns.extend (h : MaximalRuns xs (runs ++ [run])) :
    MaximalRuns (xs ++ [run.value]) (runs ++ [{ run with hi := run.hi + 1 }]) := by
  have hend := h.end_eq
  have hordered := h.ordered run (by simp)
  have hmeet := List.isChain_append.mp h.meet
  have hdiffer := List.isChain_append.mp h.differ
  refine ⟨?_, ?_, ?_, ?_, ?_, ?_⟩
  · have hfirst := h.first
    cases runs with
    | nil => exact hfirst
    | cons r rest => exact hfirst
  · simp [hend]
  · intro r hr
    rcases List.mem_append.mp hr with hr | hr
    · exact h.ordered r (List.mem_append_left _ hr)
    · rw [List.mem_singleton.mp hr]
      exact Nat.le_succ_of_le hordered
  · refine List.isChain_append.mpr ⟨hmeet.1, List.isChain_singleton _, ?_⟩
    simpa using hmeet.2.2
  · refine List.isChain_append.mpr ⟨hdiffer.1, List.isChain_singleton _, ?_⟩
    simpa using hdiffer.2.2
  · intro r hr i hlo hhi
    rcases List.mem_append.mp hr with hr | hr
    · exact h.exact_snoc _ (List.mem_append_left _ hr) hlo hhi
    · rw [List.mem_singleton.mp hr] at hlo hhi ⊢
      rcases Nat.lt_or_eq_of_le hhi with hlt | heq
      · exact h.exact_snoc _ (List.mem_append_right _ List.mem_cons_self) hlo (by simp only at hlt; omega)
      · rw [heq, List.getElem?_append_right (by simp only; omega)]
        simp [hend]

/-- One more member with another value starts a run. -/
theorem MaximalRuns.start (h : MaximalRuns xs (runs ++ [run])) (hx : run.value ≠ x) :
    MaximalRuns (xs ++ [x]) (runs ++ [run] ++ [⟨xs.length, xs.length, x⟩]) := by
  have hend := h.end_eq
  refine ⟨?_, ?_, ?_, ?_, ?_, ?_⟩
  · rw [List.head?_append_of_ne_nil _ (by simp)]
    exact h.first
  · simp
  · intro r hr
    rcases List.mem_append.mp hr with hr | hr
    · exact h.ordered r hr
    · rw [List.mem_singleton.mp hr]
  · refine List.isChain_append.mpr ⟨h.meet, List.isChain_singleton _, ?_⟩
    simp [hend]
  · refine List.isChain_append.mpr ⟨h.differ, List.isChain_singleton _, ?_⟩
    simpa using hx
  · intro r hr i hlo hhi
    rcases List.mem_append.mp hr with hr | hr
    · exact h.exact_snoc _ hr hlo hhi
    · rw [List.mem_singleton.mp hr] at hlo hhi ⊢
      rw [Nat.le_antisymm hhi hlo]
      simp

/-! ## What the runs cover -/

/-- Runs that meet cover all places from the first to the last one. -/
theorem exists_run {runs : List (Run α)} (hmeet : runs.IsChain fun r r' => r'.lo = r.hi + 1)
    {a i : Nat} (hfirst : runs.head?.map (·.lo) = some a) (ha : a ≤ i)
    (hlast : ∀ r ∈ runs.getLast?, i ≤ r.hi) : ∃ r ∈ runs, r.lo ≤ i ∧ i ≤ r.hi := by
  induction runs generalizing a with
  | nil => cases hfirst
  | cons r runs ih =>
    have hlo : r.lo = a := Option.some.inj hfirst
    by_cases hi : i ≤ r.hi
    · exact ⟨r, List.mem_cons_self, by omega, hi⟩
    cases runs with
    | nil => exact absurd (hlast r rfl) hi
    | cons r' runs =>
      rw [List.isChain_cons_cons] at hmeet
      obtain ⟨r0, hr0, hin⟩ := ih hmeet.2 (by rw [List.head?_cons, Option.map_some, hmeet.1])
        (by omega) (by simpa using hlast)
      exact ⟨r0, List.mem_cons_of_mem _ hr0, hin⟩

/-- The values of the runs are those of the list. -/
theorem MaximalRuns.mem_values (h : MaximalRuns xs runs) :
    x ∈ runs.map (·.value) ↔ x ∈ xs := by
  constructor
  · intro hx
    obtain ⟨r, hr, rfl⟩ := List.mem_map.mp hx
    exact List.mem_of_getElem? (h.exact r hr r.lo (Nat.le_refl _) (h.ordered r hr))
  · intro hx
    obtain ⟨i, hi, rfl⟩ := List.mem_iff_getElem.mp hx
    obtain ⟨r, hr, hlo, hhi⟩ := exists_run h.meet h.first (Nat.zero_le i) (by
      intro r hr
      have hend := h.last
      rw [Option.mem_def.mp hr, Option.map_some] at hend
      have := Option.some.inj hend
      omega)
    have hget := h.exact r hr i hlo hhi
    rw [List.getElem?_eq_getElem hi] at hget
    rw [Option.some.inj hget]
    exact List.mem_map_of_mem hr

/-- There is one run just when there is one value. -/
theorem MaximalRuns.length_eq_one_iff [DecidableEq α] (h : MaximalRuns xs runs) :
    runs.length = 1 ↔ (runs.map (·.value)).toFinset.card = 1 := by
  constructor
  · intro hone
    obtain ⟨r, rfl⟩ := List.length_eq_one_iff.mp hone
    rfl
  · intro hone
    obtain ⟨v, hv⟩ := Finset.card_eq_one.mp hone
    have hall : ∀ r ∈ runs, r.value = v := by
      intro r hr
      have hmem : r.value ∈ (runs.map (·.value)).toFinset :=
        List.mem_toFinset.mpr (List.mem_map_of_mem hr)
      rwa [hv, Finset.mem_singleton] at hmem
    have hdiffer := h.differ
    match runs, hall, hdiffer with
    | [], _, _ => cases hone
    | [_], _, _ => rfl
    | r :: r' :: _, hall, hdiffer =>
      rw [List.isChain_cons_cons] at hdiffer
      exact absurd ((hall r (by simp)).trans (hall r' (by simp)).symm) hdiffer.1

end run_length
